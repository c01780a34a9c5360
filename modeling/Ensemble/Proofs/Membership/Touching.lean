import Ensemble.Proofs.Disk.Canonical
import Ensemble.Proofs.Membership.Crashing
import Ensemble.Proofs.Script.Footprints

/-!
# What a commit touches

The files of a layout and their temporary files are apart: where one of them leads no other one does
(`Layout.not_leadsTo_of_ne`, `Layout.not_leadsTo_temporary`). So each step of a commit leaves alone what
the other steps are about, and what is held where after a commit is told step by step: by one that
succeeds (`Store.HasCommitted`), and by one that is refused (`Store.HasRefused`).

All is told next to the disk on which the directories above the new dynamic file are made. Directories
that come to be there are not undone (`Store.exists_heldBy_ne_of_commit`). There are no symbolic and no
hard links on the disk: a file that is reached from a temporary path as well as from another one is
emptied.
-/

namespace Ensemble

open Script Disk Layout Text

variable {F : FileOp → Prop} {d d₁ d₂ d' : Disk} {l : Layout} {k k' : Kind} {m : Location}
  {ps : List Path} {s : Store} {v : Verifier} {version : Version}

/-! ### Files of a layout are apart -/

namespace Layout

/-- Where a file leads, its directory is there. -/
theorem exists_isIn_of_leadsTo {before : List Char} {name : String}
    (hends : l.staticFile.EndsInField before name.toList) (hm : d.LeadsTo (l.file k) m) :
    ∃ directory, d.follow before = .ok directory ∧ m = k.place directory name ∧
      (l.file k).EndsIn before (name ++ k.suffix).toList := by
  obtain ⟨before', name', directory, hends', hfollow, rfl, -⟩ := hm.exists_name
  obtain ⟨rfl, rfl⟩ := hends'.endsInField.unique (file_endsInField hends k)
  refine ⟨directory, hfollow, ?_, hends'⟩
  rw [String.ofList_toList]
  rfl

theorem not_leadsTo_of_ne (hk : k ≠ k') (hm : d.LeadsTo (l.file k) m) :
    ¬ d.LeadsTo (l.file k') m := by
  intro hm'
  obtain ⟨before, name, hends⟩ := l.exists_endsInField_name
  obtain ⟨directory, hfollow, hplace, -⟩ := exists_isIn_of_leadsTo hends hm
  obtain ⟨directory', hfollow', hplace', -⟩ := exists_isIn_of_leadsTo hends hm'
  obtain rfl := Except.ok.inj (hfollow.symm.trans hfollow')
  exact hk (Kind.place_inj (hplace.symm.trans hplace'))

/-- No file beside the static one has a name with `.tmp` at its end. -/
theorem Kind.append_suffix_ne_temporary (hk : k ≠ .static) (name other : String) :
    name ++ k.suffix ≠ other ++ ".tmp" := by
  intro heq
  cases k with
  | static => exact hk rfl
  | dynamic v =>
    have htext : (name.toList ++ ".dynamic".toList) ++ '.' :: (hex v.toNat).toList =
        other.toList ++ '.' :: "tmp".toList := by
      simpa [suffix] using congrArg String.toList heq
    have hcut := Path.cutLast_append (dot_not_mem_hex v.toNat) (name.toList ++ ".dynamic".toList)
    rw [htext, Path.cutLast_append (by decide) other.toList] at hcut
    have hending := (Prod.mk.inj (Option.some.inj hcut)).2
    have hread : hex64? "tmp" = none := by decide
    rw [String.toList_inj.mp hending, hex64?_hex] at hread
    cases hread
  | next | beside | backup =>
    have hlast := congrArg (fun s => s.toList.getLast?) heq
    simp [suffix, List.getLast?_cons, List.getLast?_append] at hlast

theorem not_leadsTo_temporary (hm : d.LeadsTo (l.file k) m) :
    ¬ d.LeadsTo (l.file k').temporary m := by
  intro hm'
  obtain ⟨before, name, hends⟩ := l.exists_endsInField_name
  obtain ⟨directory, hfollow, hplace, hname⟩ := exists_isIn_of_leadsTo hends hm
  by_cases hk : k = .static
  · subst hk
    have hname' : Path.IsName (name ++ k'.suffix).toList := by
      by_cases hk' : k' = .static
      · exact hk' ▸ hname.isName
      · exact Kind.isName_append_suffix hends.noSeparator hk'
    obtain ⟨directory', hfollow', hplace', -⟩ :=
      hm'.eq_of_temporary ((file_endsInField hends k').endsIn hname')
    obtain rfl := Except.ok.inj (hfollow.symm.trans hfollow')
    have htemporary : IsTemporaryFor (Kind.static.place directory name) (k'.place directory name) := by
      rw [← hplace, hplace']
      exact isTemporaryFor_concat_iff.mpr rfl
    exact Kind.not_isTemporaryFor htemporary
  · obtain ⟨_, directory', other, -, hplace'⟩ := exists_isTemporaryFor hm'
    have hlast := (List.append_inj' (hplace.symm.trans hplace') rfl).2
    exact Kind.append_suffix_ne_temporary hk name other (List.singleton_inj.mp hlast)

/-- A file holds what it held, if none but other files and temporary ones are touched. -/
theorem heldBy_file_eq (h : d.ChangedBy d' ps)
    (hps : ∀ p ∈ ps, (∃ k', k ≠ k' ∧ p = l.file k') ∨ ∃ k', p = (l.file k').temporary) :
    d'.heldBy (l.file k) = d.heldBy (l.file k) := by
  refine h.heldBy_eq fun p hp m hm => ?_
  rcases hps p hp with ⟨k', hk, hfile⟩ | ⟨k', htemporary⟩
  · rw [hfile]
    exact not_leadsTo_of_ne hk hm
  · rw [htemporary]
    exact not_leadsTo_temporary hm

theorem heldBy_file_eq_of_ne (k' : Kind) (h : d.ChangedBy d' [l.file k', (l.file k').temporary])
    (hk : k ≠ k') : d'.heldBy (l.file k) = d.heldBy (l.file k) := by
  refine heldBy_file_eq h fun p hp => ?_
  rcases List.mem_pair.mp hp with hp | hp
  · exact Or.inl ⟨k', hk, hp⟩
  · exact Or.inr ⟨k', hp⟩

end Layout

/-! ### Steps of a commit -/

/-- A file that is read is held by its path. -/
theorem Disk.heldBy_of_read {p : Path} {bytes : ByteArray} (h : d.read p = .ok bytes) :
    d.heldBy p = some (.file bytes) := by
  obtain ⟨hshort, l, hl, hfile⟩ := read_eq_ok_iff.mp h
  rw [hl.heldBy_eq hshort]
  exact heldAt_eq_file_iff.mpr hfile

/-- A text is written to a file, once directories are made above it. -/
theorem writeFile_changedBy (p : Path) (content : ByteArray) :
    (Action.onFile p (replaceFile p [content] none)).run.Guards F d (fun _ => True) fun r d' =>
      ∃ d₁, MakesWay p.above d d₁ ∧ match r with
        | .ok _ => d₁.ChangedBy d' [p, p.temporary] ∧ d'.heldBy p = some (.file content)
        | .error _ => d₁.ChangedBy d' [p.temporary] := by
  refine Action.guards_onFile (replaceFile_changedBy _ _) fun r d' hr => ⟨trivial, ?_⟩
  rw [joinChunks_singleton] at hr
  cases r with
  | ok u => exact hr
  | error e => exact hr

/-- **The static file** is written again, or only its temporary file is touched. -/
theorem pointStatic_changedBy (staticFile dynamicFile : Path) (eraseClientPort : Bool) :
    (pointStatic staticFile dynamicFile eraseClientPort).run.Guards F d (fun _ => True) fun r d' =>
      match r with
      | .ok _ => d.ChangedBy d' [staticFile, staticFile.temporary] ∧ ∃ text props q,
          d.heldBy staticFile = some (.file (String.toUTF8 text)) ∧
          Properties.ofText text = .ok props ∧ d.canonical dynamicFile = .ok q ∧
          d'.heldBy staticFile = some (.file (staticText props q eraseClientPort).toUTF8)
      | .error _ => d.ChangedBy d' [staticFile.temporary] := by
  unfold pointStatic
  refine Action.guards_lift_bind ((isPresent_guards _).mono (fun _ _ => trivial) fun _ _ => id) ?_
  rintro there d' ⟨rfl, -⟩
  cases there with
  | false => exact guards_pure trivial (.refl _ _)
  | true =>
    refine Action.guards_bind ((canonical_guards _).mono (fun _ _ => trivial) fun _ _ => id) ?_ ?_
    · rintro q d₁ ⟨rfl, hq⟩
      refine Action.guards_bind ((ofFile_guards _).mono (fun _ _ => trivial) fun _ _ => id) ?_ ?_
      · rintro props d₂ ⟨rfl, hread⟩
        obtain ⟨text, htext, hprops⟩ := hread props rfl
        obtain ⟨-, l, hl, -⟩ := read_eq_ok_iff.mp htext
        refine (writeFile_changedBy _ _).mono (fun _ _ => trivial) fun r d₃ hr => ?_
        obtain ⟨d₄, hway, hr⟩ := hr
        obtain rfl := hway.prepared.eq_of_leadsTo l hl
        cases r with
        | ok u => exact ⟨hr.1, text, props, q, heldBy_of_read htext, hprops, hq q rfl, hr.2⟩
        | error e => exact hr
      · rintro e d₂ ⟨rfl, -⟩
        exact ⟨trivial, .refl _ _⟩
    · rintro e d₁ ⟨rfl, -⟩
      exact ⟨trivial, .refl _ _⟩

/-- The last step of a path that ends in a name is that name. -/
theorem Path.EndsIn.getLast?_components {p : Path} {before name : List Char}
    (h : p.EndsIn before name) : p.components.getLast? = some (.name name) := by
  obtain ⟨rest, -, hparts, -⟩ := h.exists_parts
  have hfiller : isFiller name = false := h.isStep.isFiller_eq
  simp [components, hparts, hfiller, h.ne_up]

/-- The canonical path of a file is made of its place. -/
theorem Disk.exists_leadsTo_of_canonical {p q : Path} {before name : List Char}
    (hends : p.EndsIn before name) (h : d.canonical p = .ok q) :
    ∃ l, d.LeadsTo p l ∧ q = pathOf l := by
  obtain ⟨s, hwalk, h⟩ := Except.bind_eq_ok_iff.mp h
  obtain ⟨⟨l, n⟩, hresolve, h⟩ := Except.bind_eq_ok_iff.mp h
  exact ⟨l, (leadsTo_of_resolve hends hwalk hresolve).1, (Except.ok.inj h).symm⟩

/-- Two dynamic files that are taken for one are of one version. -/
theorem Layout.version_eq_of_sameFile {w : Version}
    (h : (∃ q, d.canonical (l.dynamicFile w) = .ok q ∧ d.canonical (l.dynamicFile version) = .ok q) ∨
      (l.dynamicFile w).sameSteps (l.dynamicFile version) = true) : w = version := by
  obtain ⟨before, name, hends⟩ := l.exists_endsInField_name
  have hfile : ∀ u, (l.dynamicFile u).EndsIn before (name ++ (Kind.dynamic u).suffix).toList := fun u =>
    (file_endsInField hends (.dynamic u)).endsIn
      (Kind.isName_append_suffix hends.noSeparator (by simp))
  have hversion : ∀ u u' : Version,
      (name ++ (Kind.dynamic u).suffix).toList = (name ++ (Kind.dynamic u').suffix).toList → u = u' := by
    intro u u' hname
    have hplace : (Kind.dynamic u).place [] name = (Kind.dynamic u').place [] name := by
      rw [Kind.place, Kind.place, String.toList_inj.mp hname]
    exact Kind.dynamic.inj (Kind.place_inj hplace)
  rcases h with ⟨q, hq, hq'⟩ | hsteps
  · obtain ⟨m, hm, rfl⟩ := exists_leadsTo_of_canonical (hfile w) hq
    obtain ⟨m', hm', heq⟩ := exists_leadsTo_of_canonical (hfile version) hq'
    obtain ⟨directory, hfollow, rfl, -⟩ := hm.exists_directory (hfile w)
    obtain ⟨directory', hfollow', rfl, -⟩ := hm'.exists_directory (hfile version)
    obtain rfl := Except.ok.inj (hfollow.symm.trans hfollow')
    have htext := congrArg (fun p : Path => p.text.toList) heq
    simp only [toList_pathOf_concat, String.ofList_toList] at htext
    exact hversion _ _ (List.append_cancel_left htext)
  · have hlast := congrArg List.getLast? (beq_iff_eq.mp hsteps)
    rw [(hfile w).getLast?_components, (hfile version).getLast?_components] at hlast
    exact hversion _ _ (Path.Component.name.inj (Option.some.inj hlast))

namespace Store

/-- **The dynamic file of before** is removed, if it is of another version. -/
theorem removePrevious_changedBy (hactive : s.NamesActive) (version : Version) :
    (s.removePrevious (s.layout.dynamicFile version)).Guards F d (fun _ => True) fun _ d' =>
      (d' = d ∧ ∀ w, s.activeFile = some (s.layout.dynamicFile w) → w = version) ∨
      ∃ w, w ≠ version ∧ s.activeFile = some (s.layout.dynamicFile w) ∧
        d.ChangedBy d' [s.layout.dynamicFile w] ∧ (¬ F (.remove (s.layout.dynamicFile w)) →
          d.heldBy (s.layout.dynamicFile w) ≠ some .directory →
            d'.heldBy (s.layout.dynamicFile w) = none) := by
  unfold removePrevious
  split
  · rename_i hnone
    exact guards_pure trivial (Or.inl ⟨rfl, fun w hw => by rw [hnone] at hw; cases hw⟩)
  · rename_i previous hprevious
    obtain ⟨w, hw⟩ := hactive previous hprevious
    rw [hw] at hprevious ⊢
    refine Guards.bind ((sameFile_guards _ _).mono (fun _ _ => trivial) fun _ _ => id) ?_
    rintro same d' ⟨rfl, hsame, hversion⟩
    cases same with
    | true =>
      refine guards_pure trivial (Or.inl ⟨rfl, fun u hu => ?_⟩)
      have hsame := hversion rfl
      rw [← Option.some.inj (hu.symm.trans hprevious)] at hsame
      exact version_eq_of_sameFile hsame
    | false =>
      refine (removeFile_changedBy _).mono (fun _ _ => trivial) fun u d₁ hr => ?_
      refine Or.inr ⟨w, ?_, hprevious, hr⟩
      rintro rfl
      cases hsame rfl

/-! ### After a commit -/

/-- The paths that a commit writes, and those that it removes. -/
def touched (s : Store) (version : Version) : List Path :=
  [s.layout.dynamicFile version, (s.layout.dynamicFile version).temporary, s.layout.staticFile,
    s.layout.staticFile.temporary] ++ s.activeFile.toList ++ [s.nextFile]

/-- **What a commit leaves** that succeeds, next to what was held once directories were made. -/
structure HasCommitted (s : Store) (v : Verifier) (d₁ d' : Disk) : Prop where
  /-- The new dynamic file holds the membership. -/
  dynamic : d'.heldBy (s.layout.dynamicFile v.version) = some (.file (v.fileText false).toUTF8)
  /-- The static file is rewritten, and names the new dynamic file. -/
  static : ∃ text props q, d₁.heldBy s.layout.staticFile = some (.file (String.toUTF8 text)) ∧
    Properties.ofText text = .ok props ∧ d'.canonical (s.layout.dynamicFile v.version) = .ok q ∧
    d'.heldBy s.layout.staticFile = some (.file (staticText props q s.eraseClientPort).toUTF8)
  /-- The proposal is gone, if it was a file. -/
  next : d₁.heldBy s.nextFile ≠ some .directory → d'.heldBy s.nextFile = none
  /-- The dynamic file of another version is gone, if it was a file. -/
  previous : ∀ w, s.activeFile = some (s.layout.dynamicFile w) → w ≠ v.version →
    d₁.heldBy (s.layout.dynamicFile w) ≠ some .directory →
      d'.heldBy (s.layout.dynamicFile w) = none
  /-- Every other place holds what it held. -/
  others : ∀ m, (∀ p ∈ s.touched v.version, ¬ d₁.LeadsTo p m) → d'.heldAt m = d₁.heldAt m

/-- **What a commit leaves** that is refused. -/
structure HasRefused (s : Store) (v : Verifier) (d₁ d' : Disk) : Prop where
  static : d'.heldBy s.layout.staticFile = d₁.heldBy s.layout.staticFile
  next : d'.heldBy s.nextFile = d₁.heldBy s.nextFile
  dynamic : ∀ u, u ≠ v.version →
    d'.heldBy (s.layout.dynamicFile u) = d₁.heldBy (s.layout.dynamicFile u)
  /-- At most the new dynamic file is written, and temporary files are left. -/
  others : ∀ m, (∀ p ∈ [s.layout.dynamicFile v.version, (s.layout.dynamicFile v.version).temporary,
    s.layout.staticFile.temporary], ¬ d₁.LeadsTo p m) → d'.heldAt m = d₁.heldAt m

theorem hasRefused_of_changedBy (hactive : s.NamesActive)
    (h : d₁.ChangedBy d' [s.layout.dynamicFile v.version,
      (s.layout.dynamicFile v.version).temporary, s.layout.staticFile.temporary]) :
    s.HasRefused v d₁ d' := by
  have hkept : ∀ k, k ≠ .dynamic v.version →
      d'.heldBy (s.layout.file k) = d₁.heldBy (s.layout.file k) := by
    intro k hk
    refine heldBy_file_eq h fun p hp => ?_
    simp only [List.mem_cons, List.not_mem_nil, or_false] at hp
    rcases hp with hp | hp | hp
    · exact Or.inl ⟨.dynamic v.version, hk, hp⟩
    · exact Or.inr ⟨.dynamic v.version, hp⟩
    · exact Or.inr ⟨.static, hp⟩
  refine ⟨hkept .static (by simp), ?_, fun u hu => hkept (.dynamic u) (by simpa using hu),
    fun m hm => h.heldAt_eq hm⟩
  obtain ⟨k, hk, hnext⟩ := exists_nextFile_eq hactive
  rw [hnext]
  exact hkept k hk.ne_dynamic

/-- What is found at the dynamic file has a canonical path that stays the same. -/
theorem canonical_of_sameTree {p q : Path} {before name : List Char} {bytes : ByteArray}
    (hends : p.EndsIn before name) (htree : SameTree d d') (hq : d.canonical p = .ok q)
    (hheld : d'.heldBy p = some (.file bytes)) : d'.canonical p = .ok q := by
  obtain ⟨m, hm, rfl⟩ := exists_leadsTo_of_canonical hends hq
  have hm' := htree.leadsTo_iff.mpr hm
  obtain ⟨hshort, -⟩ := (heldBy_eq_some_iff_of_endsIn hends).mp hheld
  rw [hm'.heldBy_eq hshort] at hheld
  refine hm'.canonical_eq_ok_iff.mpr ⟨rfl, ?_⟩
  rw [isSome_node?_iff, heldAt_eq_file_iff.mp hheld]
  exact Or.inr rfl

section
variable {d₃ d₄ : Disk}

/-- The dynamic file is written, then the static file, then the dynamic file of before is removed, if
there is one of another version, and then the proposal. -/
structure TakesSteps (s : Store) (v : Verifier) (d₁ d₂ d₃ d₄ d' : Disk) : Prop where
  dynamic : d₁.ChangedBy d₂ [s.layout.dynamicFile v.version,
    (s.layout.dynamicFile v.version).temporary]
  held : d₂.heldBy (s.layout.dynamicFile v.version) = some (.file (v.fileText false).toUTF8)
  static : d₂.ChangedBy d₃ [s.layout.staticFile, s.layout.staticFile.temporary]
  pointed : ∃ text props q, d₂.heldBy s.layout.staticFile = some (.file (String.toUTF8 text)) ∧
    Properties.ofText text = .ok props ∧ d₂.canonical (s.layout.dynamicFile v.version) = .ok q ∧
    d₃.heldBy s.layout.staticFile = some (.file (staticText props q s.eraseClientPort).toUTF8)
  previous : (d₄ = d₃ ∧ ∀ w, s.activeFile = some (s.layout.dynamicFile w) → w = v.version) ∨
    ∃ w, w ≠ v.version ∧ s.activeFile = some (s.layout.dynamicFile w) ∧
      d₃.ChangedBy d₄ [s.layout.dynamicFile w] ∧
      (d₃.heldBy (s.layout.dynamicFile w) ≠ some .directory →
        d₄.heldBy (s.layout.dynamicFile w) = none)
  next : d₄.ChangedBy d' [s.nextFile]
  gone : d₄.heldBy s.nextFile ≠ some .directory → d'.heldBy s.nextFile = none

namespace TakesSteps

variable (h : s.TakesSteps v d₁ d₂ d₃ d₄ d')
include h

theorem kept_dynamic (hk : k ≠ .dynamic v.version) :
    d₂.heldBy (s.layout.file k) = d₁.heldBy (s.layout.file k) :=
  heldBy_file_eq_of_ne (.dynamic v.version) h.dynamic hk

theorem kept_static (hk : k ≠ .static) : d₃.heldBy (s.layout.file k) = d₂.heldBy (s.layout.file k) :=
  heldBy_file_eq_of_ne .static h.static hk

theorem kept_previous (hk : ∀ w, k = .dynamic w → w = v.version) :
    d₄.heldBy (s.layout.file k) = d₃.heldBy (s.layout.file k) := by
  rcases h.previous with ⟨rfl, -⟩ | ⟨w, hw, -, hremoved, -⟩
  · rfl
  · refine heldBy_file_eq hremoved fun p hp => Or.inl ⟨.dynamic w, ?_, List.mem_singleton.mp hp⟩
    exact fun hkw => hw (hk w hkw)

theorem kept_next (hactive : s.NamesActive) (hk : ¬ k.IsNext) :
    d'.heldBy (s.layout.file k) = d₄.heldBy (s.layout.file k) := by
  obtain ⟨k', hk', hnext⟩ := exists_nextFile_eq hactive
  refine heldBy_file_eq h.next fun p hp => Or.inl ⟨k', ?_, ?_⟩
  · rintro rfl
    exact hk hk'
  · rw [List.mem_singleton.mp hp, hnext]

theorem changedBy_previous : d₃.ChangedBy d₄ s.activeFile.toList := by
  rcases h.previous with ⟨rfl, -⟩ | ⟨w, -, hactive, hremoved, -⟩
  · exact .refl _ _
  · exact hremoved.mono (by simp [hactive])

theorem hasCommitted (hactive : s.NamesActive) : s.HasCommitted v d₁ d' := by
  have hdynamic : d'.heldBy (s.layout.dynamicFile v.version) =
      some (.file (v.fileText false).toUTF8) := by
    rw [← h.held]
    exact (h.kept_next (k := .dynamic v.version) hactive id).trans
      ((h.kept_previous (by simp)).trans (h.kept_static (by simp)))
  refine ⟨hdynamic, ?_, fun hfile => h.gone ?_, fun w hw hne hfile => ?_, fun m hm => ?_⟩
  · obtain ⟨text, props, q, hbefore, hprops, hq, hafter⟩ := h.pointed
    obtain ⟨before, name, hends⟩ := s.layout.exists_endsInField_name
    have htree := h.static.sameTree.trans (h.changedBy_previous.sameTree.trans h.next.sameTree)
    refine ⟨text, props, q, ?_, hprops,
      canonical_of_sameTree (dynamicFile_endsIn hends v.version) htree hq hdynamic, ?_⟩
    · rw [← hbefore]
      exact (h.kept_dynamic (k := .static) (by simp)).symm
    · rw [← hafter]
      exact (h.kept_next (k := .static) hactive id).trans (h.kept_previous (by simp))
  · obtain ⟨k, hk, hnext⟩ := exists_nextFile_eq hactive
    rw [hnext] at hfile ⊢
    rwa [h.kept_previous fun w hw => absurd hw hk.ne_dynamic, h.kept_static hk.ne_static,
      h.kept_dynamic hk.ne_dynamic]
  · have hfile₃ : d₃.heldBy (s.layout.dynamicFile w) = d₁.heldBy (s.layout.dynamicFile w) :=
      (h.kept_static (k := .dynamic w) (by simp)).trans (h.kept_dynamic (by simpa using hne))
    rw [← hfile₃] at hfile
    have hgone : d₄.heldBy (s.layout.dynamicFile w) = none := by
      rcases h.previous with ⟨-, hversion⟩ | ⟨u, -, hu, -, hremoved⟩
      · exact absurd (hversion w hw) hne
      · rw [Option.some.inj (hw.symm.trans hu)] at hfile ⊢
        exact hremoved hfile
    exact (h.kept_next (k := .dynamic w) hactive id).trans hgone
  · exact (((h.dynamic.trans h.static).trans h.changedBy_previous).trans h.next).heldAt_eq hm

end TakesSteps

end

/-- A commit, step by step. -/
theorem commit_changedBy (hactive : s.NamesActive) (hremove : ∀ p, ¬ F (.remove p)) (v : Verifier) :
    (s.commit v).run.Guards F d (fun _ => True) fun r d' =>
      ∃ d₁, MakesWay (s.layout.dynamicFile v.version).above d d₁ ∧ match r with
        | .ok s' => s' = { s with activeFile := some (s.layout.dynamicFile v.version) } ∧
            s.HasCommitted v d₁ d'
        | .error _ => s.HasRefused v d₁ d' := by
  unfold commit
  -- the dynamic file
  refine Action.guards_bind (writeFile_changedBy _ _) ?_ ?_
  · rintro u d₂ ⟨d₁, hway, hdynamic, hheld⟩
    -- the static file
    refine Action.guards_bind (pointStatic_changedBy _ _ _) ?_ ?_
    · rintro u d₃ ⟨hstatic, hpointed⟩
      -- the dynamic file of before, and the proposal
      refine Action.guards_lift_bind (removePrevious_changedBy hactive v.version)
        fun u d₄ hprevious => ?_
      refine Action.guards_lift_bind (removeFile_changedBy s.nextFile) fun u d₅ hnext => ?_
      have hsteps : s.TakesSteps v d₁ d₂ d₃ d₄ d₅ := by
        refine ⟨hdynamic, hheld, hstatic, hpointed, hprevious.imp id ?_, hnext.1, hnext.2 (hremove _)⟩
        rintro ⟨w, hw, hactive, hremoved, hgone⟩
        exact ⟨w, hw, hactive, hremoved, hgone (hremove _)⟩
      exact guards_pure trivial ⟨d₁, hway, rfl, hsteps.hasCommitted hactive⟩
    · intro e d₃ hstatic
      exact ⟨trivial, d₁, hway, hasRefused_of_changedBy hactive (hdynamic.trans hstatic)⟩
  · rintro e d₂ ⟨d₁, hway, hdynamic⟩
    refine ⟨trivial, d₁, hway, hasRefused_of_changedBy hactive (hdynamic.mono ?_)⟩
    simp

end Store

/-! ### Main results -/

/-- The path of the static file ends in a name and never goes up. -/
def Layout.IsPlain (l : Layout) : Prop :=
  ∃ before name, l.staticFile.EndsIn before name ∧ ['.', '.'] ∉ Path.moves l.staticFile.text.toList

/-- Every file of a plain layout has a path that ends in a name and never goes up. -/
theorem Layout.IsPlain.exists_endsIn (h : l.IsPlain) : ∃ before, ∀ k,
    ∃ name, (l.file k).EndsIn before name ∧ ['.', '.'] ∉ Path.moves (l.file k).text.toList := by
  obtain ⟨before, name, hends, hup⟩ := h
  rw [← String.toList_ofList (l := name)] at hends
  refine ⟨before, fun k => ⟨(String.ofList name ++ k.suffix).toList, ?_⟩⟩
  have hfile : (l.file k).EndsIn before (String.ofList name ++ k.suffix).toList := by
    by_cases hk : k = .static
    · rw [hk]
      simpa [file, Kind.suffix] using hends
    · exact (file_endsInField hends.endsInField k).endsIn
        (Kind.isName_append_suffix hends.endsInField.noSeparator hk)
  refine ⟨hfile, ?_⟩
  rw [hends.moves_eq, List.mem_append, not_or] at hup
  rw [hfile.moves_eq, List.mem_append, not_or]
  exact ⟨hup.1, by simpa [eq_comm] using hfile.ne_up⟩

/-- The directories above the dynamic file of a version are made. -/
structure Layout.Prepared (l : Layout) (version : Version) (d d₁ : Disk) : Prop
    extends d.Prepared d₁ (l.dynamicFile version) where
  /-- Every file of a plain layout holds what it held. -/
  heldBy_file_eq : d.IsTree → l.IsPlain → ∀ k, d₁.heldBy (l.file k) = d.heldBy (l.file k)
  /-- Nothing is made if one of the files is found that a plain layout tells. -/
  eq_of_heldBy_file : d.IsTree → l.IsPlain → ∀ k x, d₁.heldBy (l.file k) = some x → d₁ = d

theorem Layout.prepared_of_makesWay (h : MakesWay (l.dynamicFile version).above d d₁) :
    l.Prepared version d d₁ := by
  have hkept : d.IsTree → l.IsPlain → ∀ k, d₁.heldBy (l.file k) = d.heldBy (l.file k) := by
    intro htree hplain k
    obtain ⟨before, hfile⟩ := hplain.exists_endsIn
    obtain ⟨name, hends, hup⟩ := hfile k
    obtain ⟨name', hends', -⟩ := hfile (.dynamic version)
    exact h.heldBy_eq (fun q hq => (Path.isAbove_of_mem_above hq).of_endsIn hends' hends) htree hup
  refine ⟨h.prepared, hkept, fun htree hplain k x hx => ?_⟩
  obtain ⟨before, hfile⟩ := hplain.exists_endsIn
  obtain ⟨name, hends, -⟩ := hfile k
  obtain ⟨name', hends', -⟩ := hfile (.dynamic version)
  rw [hkept htree hplain] at hx
  obtain ⟨-, m, hm, -⟩ := (heldBy_eq_some_iff_of_endsIn hends).mp hx
  obtain ⟨directory, hfollow, -⟩ := hm.exists_directory hends
  exact h.eq_of_follow hends' hfollow

namespace Store

/-- **What a commit touches** on a disk without links, whatever fails but the removal of a file: one
that succeeds leaves the new dynamic file and the rewritten static file, removes the dynamic file of
another version and the proposal, and nothing else is changed; one that is refused changes no more than
the new dynamic file. -/
theorem commit_touches {r : Except ConfigError Store} (hactive : s.NamesActive)
    (hremove : ∀ p, ¬ F (.remove p)) (h : (s.commit v).run.Reaches F d (some r) d') :
    ∃ d₁, s.layout.Prepared v.version d d₁ ∧
      (∀ s', r = .ok s' → s' = { s with activeFile := some (s.layout.dynamicFile v.version) } ∧
        s.HasCommitted v d₁ d') ∧
      ∀ e, r = .error e → s.HasRefused v d₁ d' := by
  obtain ⟨d₁, hway, hr⟩ := (commit_changedBy hactive hremove v).atEnd h
  refine ⟨d₁, prepared_of_makesWay hway, ?_, ?_⟩
  · rintro s' rfl
    exact hr
  · rintro e rfl
    exact hr

/-- `zooDisk` with a proposal. -/
def proposedDisk : Disk := zooDisk.set ["zoo.cfg.dynamic.next"] (.file 2 "server.1=a:3888\n".toUTF8)

/-- A membership of one server. -/
def lone : Verifier :=
  .majority (.ofMembers ⟨.ofList [(1, ⟨1, some ⟨"b", 3888⟩, none, .participant⟩)], by decide⟩ 2)

/-- Version 2 is committed after version 1: the dynamic file of version 1 is gone, and so is the
proposal. -/
theorem commit_touches_zoo : ∃ d', (zoo.commit lone).run.Reaches
    (fun _ => False) proposedDisk
      (some (.ok { zoo with activeFile := some ⟨"zoo.cfg.dynamic.2"⟩ })) d' ∧
    d'.heldBy ⟨"zoo.cfg.dynamic.2"⟩ = some (.file "server.1=b:3888:participant\n".toUTF8) ∧
    d'.heldBy ⟨"zoo.cfg.dynamic.1"⟩ = none ∧ d'.heldBy ⟨"zoo.cfg.dynamic.next"⟩ = none := by
  have hreaches := (zoo.commit lone).run.reaches_run (F := fun _ => False)
    proposedDisk
  have hvalue : ((zoo.commit lone).run.run proposedDisk).value =
      .ok { zoo with activeFile := some ⟨"zoo.cfg.dynamic.2"⟩ } := by rfl
  rw [hvalue] at hreaches
  have hactive : zoo.NamesActive := fun file hfile =>
    ⟨1, (Option.some.inj hfile).symm.trans (by rfl)⟩
  obtain ⟨d₁, hprepared, hcommitted, -⟩ := commit_touches hactive (fun _ => id) hreaches
  obtain ⟨-, hcommitted⟩ := hcommitted _ rfl
  have hends : (zoo.layout.dynamicFile 2).EndsIn [] "zoo.cfg.dynamic.2".toList :=
    ⟨⟨by rfl, by simp, by decide, by decide, by decide⟩, by decide⟩
  -- nothing is made above the new dynamic file
  have hleads : proposedDisk.LeadsTo (zoo.layout.dynamicFile 2) ["zoo.cfg.dynamic.2"] :=
    ⟨by decide, [], _, [], hends, by rfl, by rfl, by decide⟩
  obtain rfl := hprepared.eq_of_leadsTo _ hleads
  have hprevious : proposedDisk.heldBy (zoo.layout.dynamicFile 1) =
      some (.file "server.1=a:3888\n".toUTF8) := by rfl
  have hnext : proposedDisk.heldBy zoo.nextFile = some (.file "server.1=a:3888\n".toUTF8) := by rfl
  refine ⟨_, hreaches, hcommitted.dynamic, ?_, hcommitted.next (by simp [hnext])⟩
  exact hcommitted.previous 1 (by rfl) (by decide) (by simp [hprevious])

/-- The static file is reached through a directory that is left again. -/
def indirect : Store where
  layout := ⟨⟨"a/../zoo.cfg"⟩⟩

/-- The static file of `indirect`, without the directory on the way. -/
def indirectDisk : Disk where
  nodes := .ofList [(["zoo.cfg"], .file 0 "dataDir=d\n".toUTF8)]
  here := []
  nextId := 1

/-- A commit may leave more than its files: the directory on the way to them stays. -/
theorem exists_heldBy_ne_of_commit : ∃ d', (indirect.commit lone).run.Reaches (fun _ => False)
    indirectDisk (some (.ok { indirect with activeFile := some (indirect.layout.dynamicFile 2) })) d' ∧
    ⟨"a"⟩ ∉ indirect.touched 2 ∧
      indirectDisk.heldBy ⟨"a"⟩ = none ∧ d'.heldBy ⟨"a"⟩ = some .directory := by
  have hreaches := (indirect.commit lone).run.reaches_run (F := fun _ => False) indirectDisk
  have hvalue : ((indirect.commit lone).run.run indirectDisk).value =
      .ok { indirect with activeFile := some (indirect.layout.dynamicFile 2) } := by rfl
  rw [hvalue] at hreaches
  exact ⟨_, hreaches, by decide +kernel, by rfl, by rfl⟩

end Store

end Ensemble
