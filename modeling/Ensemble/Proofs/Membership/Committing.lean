import Ensemble.Membership.Registry
import Ensemble.Proofs.Membership.Writing

/-!
# What a reconfiguration leaves on the disk

A reconfiguration that succeeds writes the proposal, the backup, the new dynamic file and the static
file in turn (`Store.Written`), and removes the dynamic file of before and the proposal
(`Store.Installed`).
-/

namespace Ensemble

open Script Disk Text

/-! ### Names told apart -/

/-- The name of the dynamic file of a version, around a static file. -/
def dynamicName (name : String) (v : Version) : String := name ++ ".dynamic." ++ hex v.toNat

theorem Layout.dynamicFile_endsIn_dynamicName {l : Layout} {before : List Char} {name : String}
    (h : l.staticFile.EndsIn before name.toList) (v : Version) :
    (l.dynamicFile v).EndsIn before (dynamicName name v).toList := by
  have hfile := Layout.dynamicFile_endsIn h.endsInField v
  have hname : (dynamicName name v).toList =
      name.toList ++ ".dynamic".toList ++ '.' :: (hex v.toNat).toList := by
    simp [dynamicName]
  rwa [hname]

/-- A name without a dot: no file of a membership has one. -/
def HasNoDot (l : Location) : Prop := ∀ n ∈ l.getLast?, '.' ∉ n.toList

theorem HasNoDot.ne_concat {l directory : Location} {n : String} (h : HasNoDot l)
    (hn : '.' ∈ n.toList) : l ≠ directory ++ [n] := by
  rintro rfl
  exact h n (by simp) hn

theorem HasNoDot.not_isTemporaryFor {l m : Location} (h : HasNoDot l) : ¬ IsTemporaryFor l m := by
  rintro ⟨directory, name, -, rfl⟩
  exact h _ List.getLast?_concat (by simp)

theorem dot_mem_dynamicName (name : String) (v : Version) : '.' ∈ (dynamicName name v).toList := by
  simp [dynamicName]

theorem concat_ne_concat_append {directory : Location} {name suffix : String} (h : suffix ≠ "") :
    directory ++ [name] ≠ directory ++ [name ++ suffix] := by
  intro heq
  have hname : name = name ++ suffix := by simpa using heq
  have hlen := congrArg String.length hname
  rw [String.length_append] at hlen
  exact h (String.length_eq_zero_iff.mp (by omega))

theorem concat_ne_dynamicName (directory : Location) (name : String) (v : Version) :
    directory ++ [name] ≠ directory ++ [dynamicName name v] := by
  rw [dynamicName, String.append_assoc]
  refine concat_ne_concat_append fun h => ?_
  simpa using congrArg String.length h

/-- `next` is no version. -/
theorem dynamicName_ne_next {stem : List Char} {name other : String} {v : Version}
    (h : other.toList = stem ++ ".next".toList) : dynamicName name v ≠ other := by
  intro heq
  have hname : (dynamicName name v).toList =
      (name.toList ++ ".dynamic".toList) ++ '.' :: (hex v.toNat).toList := by
    simp [dynamicName]
  have hcut := Path.cutLast_append (dot_not_mem_hex v.toNat) (name.toList ++ ".dynamic".toList)
  rw [← hname, heq, h] at hcut
  have hnext : Path.cutLast '.' (stem ++ '.' :: "next".toList) = some (stem, "next".toList) :=
    Path.cutLast_append (by decide) stem
  have hhex : (hex v.toNat).toList = "next".toList := by
    have hboth := hcut.symm.trans hnext
    exact (Prod.mk.inj (Option.some.inj hboth)).2
  have hversion := hex64?_hex v
  have hnone : hex64? "next" = none := by decide
  rw [String.toList_inj.mp hhex, hnone] at hversion
  cases hversion

theorem dynamicName_not_isTemporaryFor (directory directory' : Location) (name : String)
    (v : Version) : ¬ IsTemporaryFor (directory ++ [dynamicName name v]) (directory' ++ [name]) := by
  intro h
  obtain ⟨-, hname⟩ := List.append_inj' (isTemporaryFor_concat_iff.mp h) rfl
  have hlen := congrArg (fun n => n.toList.length) (List.singleton_inj.mp hname)
  simp [dynamicName] at hlen

/-! ### A commit, file by file -/

/-- Where a store keeps its files: the static file `name` and what is named by it in a directory, and
the proposal in one of its own. -/
structure Store.Keeps (s : Store) (d : Disk) (directory : Location) (name : String) (next : Location) :
    Prop where
  static : ∃ before, s.layout.staticFile.EndsIn before name.toList ∧ d.follow before = .ok directory
  proposal : ∃ before other directory', s.nextFile.EndsIn before other.toList ∧
    d.follow before = .ok directory' ∧ next = directory' ++ [other] ∧
      ∃ stem, other.toList = stem ++ ".next".toList
  ne_static : next ≠ directory ++ [name]
  /-- The dynamic file of before is not the static file. -/
  active : ∀ file, s.activeFile = some file → ¬ d.LeadsTo file (directory ++ [name])

/-- Files were written at some places, and nowhere else but at temporary ones for them. -/
structure Disk.Wrote (d d' : Disk) (places : List Location) : Prop where
  sameTree : SameTree d d'
  kept : ∀ l, HasNoDot l → l ∉ places → d'.file? l = d.file? l
  origin : ∀ l content, d'.file? l = some content → l ∈ places ∨ d.file? l = some content

namespace Disk

variable {d d₁ d' : Disk}

theorem Wrote.of_eq (h : d' = d) (places : List Location) : Wrote d d' places := by
  subst h
  exact ⟨.refl _, fun _ _ _ => rfl, fun _ _ hl => Or.inr hl⟩

theorem Replaced.wrote {l : Location} {bytes : ByteArray} (h : Replaced d d' l bytes) :
    Wrote d d' [l] := by
  refine ⟨h.sameTree, fun k hk hkl => ?_, fun k content hk => ?_⟩
  · exact h.file?_of_ne (by simpa using hkl) hk.not_isTemporaryFor
  · simpa using h.eq_or_file?_eq hk

theorem Wrote.trans {ls ms : List Location} (h : Wrote d d₁ ls) (h' : Wrote d₁ d' ms) :
    Wrote d d' (ls ++ ms) := by
  refine ⟨h.sameTree.trans h'.sameTree, fun l hdot hl => ?_, fun l content hl => ?_⟩
  · rw [List.mem_append, not_or] at hl
    rw [h'.kept l hdot hl.2, h.kept l hdot hl.1]
  · rw [List.mem_append]
    rcases h'.origin l content hl with hl | hl
    · exact Or.inl (Or.inr hl)
    · rcases h.origin l content hl with hl | hl
      · exact Or.inl (Or.inl hl)
      · exact Or.inr hl

end Disk

/-- What a reconfiguration of a store has written, before anything is removed. -/
structure Store.Written (s : Store) (v : Verifier) (directory : Location) (name : String)
    (next : Location) (d d' : Disk) : Prop where
  wrote : Wrote d d' [next, directory ++ [name ++ ".bak"], directory ++ [dynamicName name v.version],
    directory ++ [name]]
  isShort_next : IsShort s.nextFile
  leadsTo_next : d.LeadsTo s.nextFile next
  leadsTo_dynamic : d.LeadsTo (s.layout.dynamicFile v.version)
    (directory ++ [dynamicName name v.version])
  dynamic : d'.file? (directory ++ [dynamicName name v.version]) = some (v.fileText false).toUTF8
  static : ∃ text props, d.text? (directory ++ [name]) = some text ∧
    Properties.ofText text = .ok props ∧ d'.file? (directory ++ [name]) = some
      (staticText props (pathOf (directory ++ [dynamicName name v.version]))
        s.eraseClientPort).toUTF8

/-- What a reconfiguration of a store leaves on the disk. -/
structure Store.Installed (s : Store) (v : Verifier) (directory : Location) (name : String)
    (next : Location) (d d' : Disk) : Prop where
  sameTree : SameTree d d'
  leadsTo : d.LeadsTo (s.layout.dynamicFile v.version)
    (directory ++ [dynamicName name v.version])
  dynamic : d'.text? (directory ++ [dynamicName name v.version]) = some (v.fileText false)
  static : ∃ text props, d.text? (directory ++ [name]) = some text ∧
    Properties.ofText text = .ok props ∧ d'.text? (directory ++ [name]) = some
      (staticText props (pathOf (directory ++ [dynamicName name v.version])) s.eraseClientPort)
  next : d'.file? next = none
  /-- Files without a dot stay, the static one and the dynamic one of before aside. -/
  kept : ∀ l, HasNoDot l → l ≠ directory ++ [name] →
    (∀ file, s.activeFile = some file → ¬ d.LeadsTo file l) → d'.file? l = d.file? l
  /-- What is there was there before, or belongs to the static file. -/
  origin : ∀ l content, d'.file? l = some content →
    l ∈ [directory ++ [name ++ ".bak"], directory ++ [dynamicName name v.version],
      directory ++ [name]] ∨ d.file? l = some content

/-- The file operations of a reconfiguration, in turn. -/
structure Store.Steps (s : Store) (v : Verifier) (d d₁ d₂ d₃ d₄ d₅ d' : Disk) : Prop where
  proposal : (writeDynamic s.nextFile v true).run.Leaves d (.ok ()) d₁
  backup : d₂ = d₁ ∨ ∃ q, s.backupOnce.run.Leaves d₁ (.ok q) d₂
  dynamic : (writeDynamic (s.layout.dynamicFile v.version) v false).run.Leaves d₂ (.ok ()) d₃
  static : (pointStatic s.layout.staticFile (s.layout.dynamicFile v.version)
    s.eraseClientPort).run.Leaves d₃ (.ok ()) d₄
  previous : (s.removePrevious (s.layout.dynamicFile v.version)).Leaves d₄ () d₅
  clear : s.clearNext.Leaves d₅ () d'

namespace Store

variable {s : Store} {v : Verifier} {d d₁ d₂ d₃ d₄ d₅ d' : Disk} {directory next : Location}
  {name : String}

theorem Keeps.next_ne_dynamicName (hk : s.Keeps d directory name next) (v : Version) :
    directory ++ [dynamicName name v] ≠ next := by
  obtain ⟨-, other, directory', -, -, rfl, stem, hstem⟩ := hk.proposal
  intro heq
  have hlast := congrArg List.getLast? heq
  rw [List.getLast?_concat, List.getLast?_concat] at hlast
  exact dynamicName_ne_next hstem (Option.some.inj hlast)

theorem Keeps.ne_next_of_hasNoDot (hk : s.Keeps d directory name next) {l : Location}
    (hl : HasNoDot l) : l ≠ next := by
  obtain ⟨-, other, directory', -, -, rfl, stem, hstem⟩ := hk.proposal
  exact hl.ne_concat (by rw [hstem]; simp)

theorem Steps.written (h : s.Steps v d d₁ d₂ d₃ d₄ d₅ d') (hk : s.Keeps d directory name next) :
    s.Written v directory name next d d₄ := by
  obtain ⟨before, hends, hfollow⟩ := hk.static
  obtain ⟨before', other, directory', hends', hfollow', rfl, -⟩ := hk.proposal
  -- the proposal and the backup
  obtain ⟨hshort, hnext, hproposal⟩ := writeDynamic_leaves h.proposal hends' hfollow'
  have hfollow₁ := hproposal.sameTree.follow_iff.mpr hfollow
  have hbackup : Wrote d₁ d₂ [directory ++ [name ++ ".bak"]] := by
    rcases h.backup with hd₂ | ⟨q, hq⟩
    · exact .of_eq hd₂ _
    · rcases backupOnce_leaves hq hends hfollow₁ with hd₂ | ⟨bytes, hreplaced⟩
      · exact .of_eq hd₂ _
      · exact hreplaced.wrote
  have hwrote₂ := hproposal.wrote.trans hbackup
  -- the dynamic file and the static file
  have hfollow₂ := hwrote₂.sameTree.follow_iff.mpr hfollow
  obtain ⟨-, hleads, hdynamic⟩ := writeDynamic_leaves h.dynamic
    (Layout.dynamicFile_endsIn_dynamicName hends v.version) hfollow₂
  have hwrote₃ := hwrote₂.trans hdynamic.wrote
  have hfollow₃ := hwrote₃.sameTree.follow_iff.mpr hfollow
  obtain ⟨text, props, htext, hprops, hstatic⟩ :=
    pointStatic_leaves h.static hends hfollow₃ (hdynamic.sameTree.leadsTo_iff.mpr hleads)
  have hne := concat_ne_dynamicName directory name v.version
  refine ⟨hwrote₃.trans hstatic.wrote, hshort, hnext, hwrote₂.sameTree.leadsTo_iff.mp hleads, ?_,
    text, props, ?_, hprops, hstatic.file?_self⟩
  · rw [hstatic.file?_of_ne hne.symm (dynamicName_not_isTemporaryFor _ _ _ _), hdynamic.file?_self]
  · obtain ⟨bytes, hbytes, hutf8⟩ := Option.bind_eq_some_iff.mp htext
    have hbak : directory ++ [name] ≠ directory ++ [name ++ ".bak"] :=
      concat_ne_concat_append (by decide)
    have hplaces : directory ++ [name] ∉ [directory' ++ [other]] ++
        [directory ++ [name ++ ".bak"]] ++ [directory ++ [dynamicName name v.version]] := by
      simp only [List.mem_append, List.mem_singleton, not_or]
      exact ⟨⟨hk.ne_static.symm, hbak⟩, hne⟩
    have hbefore := (hwrote₃.origin _ _ hbytes).resolve_left hplaces
    rw [text?, hbefore, Option.bind_some, hutf8]

theorem Steps.installed (h : s.Steps v d d₁ d₂ d₃ d₄ d₅ d') (hk : s.Keeps d directory name next) :
    s.Installed v directory name next d d' := by
  have hw := h.written hk
  have htree₄ := hw.wrote.sameTree
  have hleads₄ := htree₄.leadsTo_iff.mpr hw.leadsTo_dynamic
  -- what is removed
  obtain ⟨htree₅, hdynamic₅, hother₅, hold₅⟩ :=
    removePrevious_leaves h.previous hleads₄ (by rw [hw.dynamic]; rfl)
  obtain ⟨htree', hgone, hother', hold'⟩ := removeFile_leaves h.clear
  have hnext₅ := htree₅.leadsTo_iff.mpr (htree₄.leadsTo_iff.mpr hw.leadsTo_next)
  have hstays : ∀ l, l ≠ next → d'.file? l = d₅.file? l := fun l hl =>
    hother' l fun hl' => hl (hl'.unique hnext₅)
  have hactive : ∀ l, (∀ file, s.activeFile = some file → ¬ d.LeadsTo file l) →
      d₅.file? l = d₄.file? l := fun l hl =>
    hother₅ l fun file hfile hl' => hl file hfile (htree₄.leadsTo_iff.mp hl')
  obtain ⟨text, props, htext, hprops, hstatic⟩ := hw.static
  refine ⟨htree₄.trans (htree₅.trans htree'), hw.leadsTo_dynamic, ?_,
    ⟨text, props, htext, hprops, ?_⟩, hgone _ hnext₅ hw.isShort_next, ?_, ?_⟩
  · apply text?_of_file?
    rw [hstays _ (hk.next_ne_dynamicName _), hdynamic₅, hw.dynamic]
  · apply text?_of_file?
    rw [hstays _ hk.ne_static.symm, hactive _ hk.active, hstatic]
  · intro l hdot hl hfile
    have hnext := hk.ne_next_of_hasNoDot hdot
    have hbak : l ≠ directory ++ [name ++ ".bak"] := hdot.ne_concat (by simp)
    have hdyn : l ≠ directory ++ [dynamicName name v.version] :=
      hdot.ne_concat (dot_mem_dynamicName _ _)
    rw [hstays l hnext, hactive l hfile, hw.wrote.kept l hdot (by simp [hnext, hbak, hdyn, hl])]
  · intro l content hl
    rcases hw.wrote.origin l content (hold₅ l content (hold' l content hl)) with hplaces | hbefore
    · rcases List.mem_cons.mp hplaces with rfl | hplaces
      · rw [hgone _ hnext₅ hw.isShort_next] at hl
        cases hl
      · exact Or.inl hplaces
    · exact Or.inr hbefore

end Store

/-! ### Registries -/

namespace Registry

variable {r r' : Registry} {s : Store} {v : Verifier} {d d' : Disk}

theorem propose_leaves (h : (r.propose v).run.Leaves d (.ok r') d') (hstore : r.store = some s) :
    (r.checkProposal v).outcome = .ok () ∧ r' = { r with next := some v } ∧
      (writeDynamic s.nextFile v true).run.Leaves d (.ok ()) d' := by
  obtain ⟨u, d₁, hask, hrest⟩ := Action.leaves_ok_bind_iff.mp h
  obtain ⟨hcheck, rfl⟩ := Action.leaves_ok_ofReported_iff.mp hask
  rw [hstore] at hrest
  obtain ⟨p, d₂, hwrite, hdone⟩ := Action.leaves_ok_bind_iff.mp hrest
  obtain ⟨u', d₃, hdynamic, hpure⟩ := Action.leaves_ok_bind_iff.mp hwrite
  obtain ⟨-, rfl⟩ := Action.leaves_ok_pure_iff.mp hpure
  obtain ⟨rfl, rfl⟩ := Action.leaves_ok_pure_iff.mp hdone
  exact ⟨hcheck, by rw [hstore], hdynamic⟩

theorem commitStore_leaves {s' : Store} (h : (r.commitStore s v).run.Leaves d (.ok s') d') :
    ∃ d₁, (d₁ = d ∨ ∃ q, s.backupOnce.run.Leaves d (.ok q) d₁) ∧
      (s.commit v).run.Leaves d₁ (.ok s') d' := by
  unfold commitStore at h
  split at h
  · obtain ⟨q, d₁, hbackup, h⟩ := Action.leaves_ok_bind_iff.mp h
    exact ⟨d₁, Or.inr ⟨q, hbackup⟩, h⟩
  · exact ⟨d, Or.inl rfl, h⟩

theorem commit_leaves (h : r.commit.run.Leaves d (.ok r') d') (hstore : r.store = some s)
    (hnext : r.next = some v) : ∃ s', (r.commitStore s v).run.Leaves d (.ok s') d' := by
  unfold commit at h
  rw [hnext] at h
  obtain ⟨u, d₁, hcheck, hrest⟩ := Action.leaves_ok_bind_iff.mp h
  obtain ⟨-, rfl⟩ := Action.leaves_ok_ofExcept_iff.mp hcheck
  rw [hstore] at hrest
  obtain ⟨s', d₂, hcommit, hdone⟩ := Action.leaves_ok_bind_iff.mp hrest
  obtain ⟨-, rfl⟩ := Action.leaves_ok_pure_iff.mp hdone
  exact ⟨s', hcommit⟩

/-- **A reconfiguration** that succeeds is accepted by the rules, and carries out its steps. -/
theorem reconfigure_leaves {a : Option Verifier}
    (h : (r.serve (.reconfigure v)).Leaves d (.ok a, r') d') (hstore : r.store = some s) :
    (r.checkProposal v).outcome = .ok () ∧ ∃ d₁ d₂ d₃ d₄ d₅, s.Steps v d d₁ d₂ d₃ d₄ d₅ d' := by
  obtain ⟨x, d₁, hpropose, h⟩ := leaves_bind_iff.mp h
  cases x with
  | error e => cases (leaves_pure_iff.mp h).1
  | ok r₁ =>
    obtain ⟨hcheck, rfl, hproposal⟩ := propose_leaves hpropose hstore
    obtain ⟨y, d₂, hcommit, h⟩ := leaves_bind_iff.mp h
    cases y with
    | error e => cases (leaves_pure_iff.mp h).1
    | ok r₂ =>
      obtain ⟨-, rfl⟩ := leaves_pure_iff.mp h
      obtain ⟨s', hstored⟩ := commit_leaves hcommit hstore rfl
      obtain ⟨d₂, hbackup, hcommitted⟩ := commitStore_leaves hstored
      obtain ⟨_, d₃, hdynamic, h⟩ := Action.leaves_ok_bind_iff.mp hcommitted
      obtain ⟨_, d₄, hstatic, h⟩ := Action.leaves_ok_bind_iff.mp h
      obtain ⟨_, d₅, hprevious, h⟩ := Action.leaves_ok_bind_iff.mp h
      obtain ⟨_, d₆, hclear, h⟩ := Action.leaves_ok_bind_iff.mp h
      obtain ⟨-, rfl⟩ := Action.leaves_ok_pure_iff.mp h
      exact ⟨hcheck, d₁, d₂, d₃, d₄, d₅, hproposal, hbackup, hdynamic, hstatic,
        Action.leaves_ok_lift_iff.mp hprevious, Action.leaves_ok_lift_iff.mp hclear⟩

end Registry

end Ensemble
