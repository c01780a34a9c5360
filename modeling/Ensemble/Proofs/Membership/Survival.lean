import Ensemble.Proofs.Membership.Restart

/-!
# A proposal and a restart

Once a proposal is accepted, the configuration of the same static file loads as before, with what its
file proposes (`Config.Loaded.ofFile_leaves_iff_of_proposed`). The proposal is back after a restart
exactly if the membership in force is in a dynamic file and the text of the proposal holds its hosts
(`Config.survives_iff`), on disks without symbolic and hard links. Beside a static file that states the
membership itself, nothing looks for a proposal (`Config.not_survives`).
-/

namespace Ensemble

open Script Disk

namespace Config

variable {base : Context} {p file : Path} {d d' : Disk} {c c₀ c' : Config} {r r' : Registry}
  {directory next : Location} {name : String} {props : Properties} {v : Verifier}

/-! ### What a proposal leaves -/

/-- The proposal is written at a place, and the membership is not kept there or beside it. -/
structure Proposed (c : Config) (p : Path) (v : Verifier) (next : Location) (d d' : Disk) :
    Prop where
  isShort : IsShort (c.proposalFile p)
  leadsTo : d.LeadsTo (c.proposalFile p) next
  exists_temporary : ∃ m, d.LeadsTo (c.proposalFile p).temporary m
  replaced : Replaced d d' next (v.fileText true).toUTF8

/-- The dynamic file stays. -/
theorem Proposed.file?_dynamic {l : Location} (hp : c.Proposed p v next d d')
    (hfile : c.dynamicFile = some file) (hl : d.LeadsTo file l) : d'.file? l = d.file? l := by
  obtain ⟨before, name', directory', hends, hfollow, rfl, -⟩ := hl.exists_name
  obtain ⟨stem, hnext, hne, hne'⟩ := hends.exists_nextFile
  have hproposal : c.proposalFile p = file.nextFile := by
    rw [proposalFile, Store.nextFile, hfile]
  rw [← hproposal] at hnext
  obtain ⟨directory'', hfollow', rfl, -⟩ := hp.leadsTo.exists_directory hnext
  obtain rfl := Except.ok.inj (hfollow.symm.trans hfollow')
  refine hp.replaced.file?_of_ne ?_ ?_
  · intro heq
    exact hne (String.ofList_injective (List.singleton_inj.mp (List.append_cancel_left heq)))
  · rw [isTemporaryFor_concat_iff]
    intro heq
    have hname := congrArg String.toList (List.singleton_inj.mp (List.append_cancel_left heq))
    exact hne' (by simpa using hname)

namespace Loaded

variable (h : Loaded base p d c directory name props c₀)
include h

theorem proposed {a : Option Verifier} (hregistry : (Registry.ofConfig c).outcome = .ok r)
    (hserve : (r.serve (.propose v)).Leaves d (.ok a, r') d') :
    r.active.version < v.version ∧ ∃ next, c.Proposed p v next d d' := by
  obtain ⟨-, -, hstore⟩ := Registry.ofConfig_eq_ok hregistry
  obtain ⟨s, -, hconfigFile, -⟩ := ofStatic_eq_ok h.static
  rw [layout, h.sameSetup.configFile, hconfigFile] at hstore
  obtain ⟨x, d₁, hpropose, hrest⟩ := leaves_bind_iff.mp hserve
  cases x with
  | error e => cases (leaves_pure_iff.mp hrest).1
  | ok r₁ =>
    obtain ⟨-, rfl⟩ := leaves_pure_iff.mp hrest
    obtain ⟨hcheck, -, hwrite⟩ := Registry.propose_leaves hpropose hstore
    obtain ⟨before, other, directory', hends, hfollow, -⟩ := h.exists_proposal
    obtain ⟨hshort, hleads, hreplaced⟩ := writeDynamic_leaves hwrite hends hfollow
    have htemporary := exists_leadsTo_temporary (Action.leaves_ok_onFile_iff.mp hwrite) hleads hshort
    exact ⟨(Registry.checkProposal_eq_ok_iff.mp hcheck).2.1, _, hshort, hleads, htemporary, hreplaced⟩

variable (hp : c.Proposed p v next d d')
include hp

/-- The id of the server is read as before. -/
theorem ownId_leaves_of_proposed {id : Option ServerId} :
    c₀.ownId.run.Leaves d' (.ok id) d' ↔ c₀.ownId.run.Leaves d (.ok id) d := by
  refine ownId_leaves_congr hp.replaced.sameTree fun dir l _ hl => ?_
  obtain ⟨before, other, directory', hends, -, stem, hstem⟩ := h.exists_proposal
  have hnext := hp.leadsTo.getLast?_eq hends
  refine hp.replaced.file?_of_ne ?_ (hasNoDot_of_idFile hl).not_isTemporaryFor
  rintro rfl
  refine hasNoDot_of_idFile hl _ hnext ?_
  rw [hstem]
  simp

/-- The static file stays. -/
theorem file?_static_of_proposed (hne : d.canonical (c.proposalFile p) ≠ d.canonical p)
    (hne' : d.canonical (c.proposalFile p).temporary ≠ d.canonical p) :
    d'.file? (directory ++ [name]) = d.file? (directory ++ [name]) := by
  have hsome := isSome_node?_iff.mpr (Or.inr h.isSome_file?)
  refine hp.replaced.file?_of_ne ?_ fun htemporary => ?_
  · rintro rfl
    exact hne (by rw [hp.leadsTo.canonical_eq_ok_iff.mpr ⟨rfl, hsome⟩, h.canonical_eq])
  · obtain ⟨m, hm⟩ := hp.exists_temporary
    obtain rfl := htemporary.unique (isTemporaryFor_of_leadsTo hp.leadsTo hm)
    exact hne' (by rw [hm.canonical_eq_ok_iff.mpr ⟨rfl, hsome⟩, h.canonical_eq])

/-- Nor is a static file that states the membership touched. -/
theorem file?_static_of_inline (hfile : c.dynamicFile = none) :
    d'.file? (directory ++ [name]) = d.file? (directory ++ [name]) := by
  obtain ⟨before, hends, hfollow⟩ := h.endsIn
  have hproposal : c.proposalFile p = (Layout.mk p).nextFile := by
    rw [proposalFile, Store.nextFile, hfile]
  have hnext := Layout.nextFile_endsIn (l := ⟨p⟩) hends.endsInField
  rw [← hproposal, ← String.toList_append] at hnext
  obtain ⟨directory', hfollow', rfl, -⟩ := hp.leadsTo.exists_directory hnext
  obtain rfl := Except.ok.inj (hfollow.symm.trans hfollow')
  rw [String.ofList_toList] at hp
  refine hp.replaced.file?_of_ne (concat_ne_concat_append (by decide)) ?_
  rw [isTemporaryFor_concat_iff, String.append_assoc]
  exact concat_ne_concat_append (by decide)

/-! ### What is loaded again -/

theorem ofFile_leaves_iff_takeUp
    (hstatic : d'.file? (directory ++ [name]) = d.file? (directory ++ [name])) :
    (ofFile base p).run.Leaves d' (.ok c') d' ↔ (c₀.takeUp props).run.Leaves d' (.ok c') d' := by
  obtain ⟨text, htext, hprops⟩ := h.entries
  exact ofFile_leaves_iff_of_text h.isShort (hp.replaced.sameTree.leadsTo_iff.mpr h.leadsTo)
    ((text?_congr hstatic).trans htext) hprops h.static

/-- **A static file that states the membership** is read as before, and proposes nothing. -/
theorem ofFile_leaves_of_inline (hfile : c.dynamicFile = none) :
    (ofFile base p).run.Leaves d' (.ok c) d' ∧ c.pending = none := by
  rw [h.ofFile_leaves_iff_takeUp hp (h.file?_static_of_inline hp hfile)]
  have htake := h.takeUp
  rw [h.sameSetup.dynamicFile] at hfile
  unfold Config.takeUp at htake ⊢
  rw [hfile] at htake ⊢
  refine ⟨(adopt_leaves_congr fun _ => h.ownId_leaves_of_proposed hp).mpr htake, ?_⟩
  obtain ⟨-, w, id, -, -, hsettle⟩ := adopt_leaves_iff.mp htake
  obtain ⟨client, role, rfl⟩ := settle_eq_ok hsettle
  have hpending := pending_of_ofStatic h.static
  exact hpending

/-- **A dynamic file** is read as before, with what is now proposed beside it. -/
theorem ofFile_leaves_iff_of_proposed (hfile : c.dynamicFile = some file)
    (hne : d.canonical (c.proposalFile p) ≠ d.canonical p)
    (hne' : d.canonical (c.proposalFile p).temporary ≠ d.canonical p) :
    (ofFile base p).run.Leaves d' (.ok c') d' ↔
      ∃ w, Verifier.ofText (v.fileText true) = .ok w ∧ c' = { c with pending := some w } := by
  rw [h.ofFile_leaves_iff_takeUp hp (h.file?_static_of_proposed hp hne hne')]
  have hfile₀ := hfile
  rw [h.sameSetup.dynamicFile] at hfile₀
  have htake := h.takeUp
  rw [takeUp_of_dynamicFile hfile₀] at htake ⊢
  obtain ⟨-, l, text, entries, c₁, pending, hshort, hleads, htext, hentries, hversion, hadopt, -, rfl⟩ :=
    adoptFile_leaves_iff.mp htake
  have htree := hp.replaced.sameTree
  have htext' := (text?_congr (hp.file?_dynamic hfile hleads)).trans htext
  have hproposal : file.nextFile = Config.proposalFile { c₁ with pending } p := by
    rw [proposalFile, Store.nextFile, hfile]
  have hpending : ∀ {found}, (readPending file.nextFile).run.Leaves d' (.ok found) d' ↔
      ∃ w, Verifier.ofText (v.fileText true) = .ok w ∧ found = some w := by
    rw [hproposal]
    exact readPending_leaves_iff_of_text hp.isShort (htree.leadsTo_iff.mpr hp.leadsTo)
      (text?_of_file? hp.replaced.file?_self)
  have hadopt' := (adopt_leaves_congr fun _ => h.ownId_leaves_of_proposed hp).mpr hadopt
  rw [adoptFile_leaves_iff]
  constructor
  · rintro ⟨-, m, text', entries', c₂, found, -, hm, hm', hentries', -, hadopt₂, hfound, rfl⟩
    obtain rfl := hleads.unique (htree.leadsTo_iff.mp hm)
    obtain rfl := Option.some.inj (htext'.symm.trans hm')
    obtain rfl := Except.ok.inj (hentries.symm.trans hentries')
    obtain rfl := Except.ok.inj (hadopt'.1.symm.trans hadopt₂.1)
    obtain ⟨w, hw, rfl⟩ := hpending.mp hfound
    exact ⟨w, hw, rfl⟩
  · rintro ⟨w, hw, rfl⟩
    exact ⟨rfl, l, text, entries, c₁, some w, hshort, htree.leadsTo_iff.mpr hleads, htext', hentries,
      hversion, hadopt', hpending.mpr ⟨w, hw, rfl⟩, rfl⟩

end Loaded

/-! ### Main results -/

/-- The registry of what a file configures. -/
def registryOf (base : Context) (p : Path) (d : Disk) : Except ConfigError Registry := do
  let c ← ((ofFile base p).run.run d).value
  (Registry.ofConfig c).outcome

/-- The disk that is left when `v` is proposed to what a file configures, if it is accepted. -/
def afterProposal (base : Context) (p : Path) (d : Disk) (v : Verifier) : Except ConfigError Disk := do
  let r ← registryOf base p d
  let served := (r.serve (.propose v)).run d
  let _ ← served.value.1
  return served.disk

/-- Once a proposal is accepted, a restart has the same membership in force, and the proposal. -/
def Survives (base : Context) (p : Path) (d : Disk) (v : Verifier) : Prop :=
  ∀ d', afterProposal base p d v = .ok d' → ∃ r r', registryOf base p d = .ok r ∧
    registryOf base p d' = .ok r' ∧
    (r'.active.version = r.active.version ∧ r.active.sameContent r'.active) ∧
    ∃ w, r'.next = some w ∧ v.sameContent w ∧ w.version = v.version

theorem registryOf_eq_ok_iff : registryOf base p d = .ok r ↔
    ∃ c, (ofFile base p).run.Leaves d (.ok c) d ∧ (Registry.ofConfig c).outcome = .ok r := by
  simp only [registryOf, Except.bind_eq_ok_iff, ofFile_value_iff]

theorem exists_of_afterProposal (h : afterProposal base p d v = .ok d') : ∃ c r a r',
    (ofFile base p).run.Leaves d (.ok c) d ∧ (Registry.ofConfig c).outcome = .ok r ∧
      (r.serve (.propose v)).Leaves d (.ok a, r') d' := by
  obtain ⟨r, hregistry, h⟩ := Except.bind_eq_ok_iff.mp h
  obtain ⟨a, ha, hdisk⟩ := Except.bind_eq_ok_iff.mp h
  obtain ⟨c, hload, hregistry⟩ := registryOf_eq_ok_iff.mp hregistry
  exact ⟨c, r, a, _, hload, hregistry, Prod.ext ha rfl, Except.ok.inj hdisk⟩

/-- With another proposal found beside the dynamic file, the registry is the same but for that. -/
theorem ofConfig_with_pending (h : (Registry.ofConfig c).outcome = .ok r) {w : Verifier} :
    (Registry.ofConfig { c with pending := some w }).outcome = .ok r' ↔
      r' = { r with next := (some w).filter fun u => r.active.version < u.version } := by
  obtain ⟨active, hactive, rfl⟩ := Registry.ofConfig_eq_ok_iff.mp h
  rw [Registry.ofConfig_eq_ok_iff]
  constructor
  · rintro ⟨active', hactive', rfl⟩
    obtain rfl := Option.some.inj (hactive.symm.trans hactive')
    rfl
  · rintro rfl
    exact ⟨active, hactive, rfl⟩

section

variable (h : Loaded base p d c directory name props c₀) (hp : c.Proposed p v next d d')
  (hd' : afterProposal base p d v = .ok d')
include h hp hd'

/-- Beside a static file that states the membership, a proposal is lost. -/
theorem Loaded.not_survives_of_inline (hfile : c.dynamicFile = none) : ¬ Survives base p d v := by
  intro hsurvives
  obtain ⟨hagain, hpending⟩ := h.ofFile_leaves_of_inline hp hfile
  obtain ⟨-, r', -, hr', -, w, hw, -⟩ := hsurvives d' hd'
  obtain ⟨c', hc', hr'⟩ := registryOf_eq_ok_iff.mp hr'
  obtain rfl := Except.ok.inj (hagain.1.symm.trans hc'.1)
  obtain ⟨active, -, rfl⟩ := Registry.ofConfig_eq_ok_iff.mp hr'
  rw [hpending] at hw
  cases hw

/-- Beside a dynamic file, a proposal survives exactly if its hosts are plain. -/
theorem Loaded.survives_iff_of_file (hload : (ofFile base p).run.Leaves d (.ok c) d)
    (hregistry : (Registry.ofConfig c).outcome = .ok r) (hlt : r.active.version < v.version)
    (hfile : c.dynamicFile = some file) (hne : d.canonical (c.proposalFile p) ≠ d.canonical p)
    (hne' : d.canonical (c.proposalFile p).temporary ≠ d.canonical p) :
    Survives base p d v ↔ v.HasPlainHosts := by
  have hagain : ∀ r', registryOf base p d' = .ok r' ↔ ∃ w, Verifier.ofText (v.fileText true) = .ok w ∧
      r' = { r with next := (some w).filter fun u => r.active.version < u.version } := by
    intro r'
    rw [registryOf_eq_ok_iff]
    constructor
    · rintro ⟨c', hc', hr'⟩
      obtain ⟨w, hw, rfl⟩ := (h.ofFile_leaves_iff_of_proposed hp hfile hne hne').mp hc'
      exact ⟨w, hw, (ofConfig_with_pending hregistry).mp hr'⟩
    · rintro ⟨w, hw, hr'⟩
      exact ⟨_, (h.ofFile_leaves_iff_of_proposed hp hfile hne hne').mpr ⟨w, hw, rfl⟩,
        (ofConfig_with_pending hregistry).mpr hr'⟩
  rw [← v.ofText_fileText_eq_ok_iff]
  constructor
  · intro hsurvives
    obtain ⟨-, r', -, hr', -, w, hw, hcontent, hversion⟩ := hsurvives d' hd'
    obtain ⟨w', hw', rfl⟩ := (hagain r').mp hr'
    have hfound : (some w').filter (fun u => decide (r.active.version < u.version)) = some w := hw
    obtain ⟨hsame, -⟩ := Option.filter_eq_some_iff.mp hfound
    obtain rfl := Option.some.inj hsame
    obtain rfl := Verifier.eq_of_sameContent hcontent hversion.symm
    exact hw'
  · intro hread d₂ hd₂
    obtain rfl := Except.ok.inj (hd'.symm.trans hd₂)
    have hfound : (some v).filter (fun u => decide (r.active.version < u.version)) = some v :=
      Option.filter_eq_some_iff.mpr ⟨rfl, decide_eq_true hlt⟩
    exact ⟨r, _, registryOf_eq_ok_iff.mpr ⟨c, hload, hregistry⟩, (hagain _).mpr ⟨v, hread, rfl⟩,
      ⟨rfl, r.active.sameContent_refl⟩, v, hfound, v.sameContent_refl, rfl⟩

end

/-- **A proposal survives a restart** exactly if the membership in force is in a dynamic file and the
hosts of the proposal are plain. This is said of a static file in which neither the proposal nor its
temporary file is kept. -/
theorem survives_iff (hload : ((ofFile base p).run.run d).value = .ok c)
    (hapart : ∀ file, c.dynamicFile = some file → d.canonical file.nextFile ≠ d.canonical p ∧
      d.canonical file.nextFile.temporary ≠ d.canonical p)
    (hd' : afterProposal base p d v = .ok d') :
    Survives base p d v ↔ c.dynamicFile.isSome ∧ v.HasPlainHosts := by
  obtain ⟨c₁, r, a, r', hload₁, hregistry, hserve⟩ := exists_of_afterProposal hd'
  obtain rfl := Except.ok.inj (hload₁.1.symm.trans hload)
  obtain ⟨directory, name, props, c₀, h⟩ := exists_loaded hload₁
  obtain ⟨hlt, next, hp⟩ := h.proposed hregistry hserve
  cases hfile : c₁.dynamicFile with
  | none => exact iff_of_false (h.not_survives_of_inline hp hd' hfile) (by simp)
  | some file =>
    have hproposal : c₁.proposalFile p = file.nextFile := by
      rw [proposalFile, Store.nextFile, hfile]
    obtain ⟨hne, hne'⟩ := hapart file hfile
    rw [← hproposal] at hne hne'
    rw [h.survives_iff_of_file hp hd' hload₁ hregistry hlt hfile hne hne']
    simp

/-- A server that may be reconfigured, with its membership in a dynamic file. -/
def namedDisk : Disk :=
  diskOf [(["z"], "dataDir=d\ndynamicConfigFile=m\n"), (["m"], "server.1=a:1\n")] []

/-- The server is proposed to be at another port. -/
theorem survives_iff_named : (∃ d', afterProposal { reconfig := true } ⟨"z"⟩ namedDisk
    (loneAt "a" none) = .ok d') ∧ Survives { reconfig := true } ⟨"z"⟩ namedDisk (loneAt "a" none) := by
  have hfile : (((ofFile { reconfig := true } ⟨"z"⟩).run.run namedDisk).value).map
      Config.dynamicFile = .ok (some ⟨"./m"⟩) := by rfl
  obtain ⟨c, hload, hc⟩ := Except.map_eq_ok_iff.mp hfile
  cases hd' : afterProposal { reconfig := true } ⟨"z"⟩ namedDisk (loneAt "a" none) with
  | error e =>
    have hok : (afterProposal { reconfig := true } ⟨"z"⟩ namedDisk (loneAt "a" none)).isOk = true := by
      decide +kernel
    rw [hd'] at hok
    cases hok
  | ok d' =>
    have hapart : ∀ file, c.dynamicFile = some file →
        namedDisk.canonical file.nextFile ≠ namedDisk.canonical ⟨"z"⟩ ∧
          namedDisk.canonical file.nextFile.temporary ≠ namedDisk.canonical ⟨"z"⟩ := by
      intro file hfile
      obtain rfl := Option.some.inj (hc.symm.trans hfile)
      have hstatic : namedDisk.canonical ⟨"z"⟩ = .ok ⟨"/z"⟩ := by rfl
      have hnext : namedDisk.canonical (Path.nextFile ⟨"./m"⟩) = .error .notFound := by rfl
      have htemporary : namedDisk.canonical (Path.nextFile ⟨"./m"⟩).temporary =
          .error .notFound := by rfl
      rw [hstatic, hnext, htemporary]
      exact ⟨nofun, nofun⟩
    refine ⟨⟨d', rfl⟩, (survives_iff hload hapart hd').mpr ⟨?_, by decide +kernel⟩⟩
    rw [hc]
    rfl

theorem not_survives_of_next (h : (afterProposal base p d v).toOption.map (fun d' =>
    (registryOf base p d').toOption.map fun r => r.next.any v.sameContent) = some (some false)) :
    ¬ Survives base p d v := by
  intro hsurvives
  cases hd' : afterProposal base p d v with
  | error e =>
    rw [hd'] at h
    cases h
  | ok d' =>
    obtain ⟨-, r', -, hr', -, w, hw, hcontent, -⟩ := hsurvives d' hd'
    rw [hd'] at h
    have hlost : r'.next.any v.sameContent = false := by
      simpa [Except.toOption, hr'] using h
    rw [hw, Option.any_some, hcontent] at hlost
    cases hlost

/-- Some proposals that are accepted do not survive a restart: beside a static file that states the
membership, and with a host that the text cannot hold. -/
theorem not_survives :
    ¬ Survives { reconfig := true } ⟨"z"⟩ (diskOf [(["z"], "dataDir=d\nserver.1=a:1\n")] [])
        (loneAt "a" none) ∧
    ¬ Survives { reconfig := true } ⟨"z"⟩ namedDisk (loneAt "a\\b" none) := by
  refine ⟨not_survives_of_next ?inline, not_survives_of_next ?host⟩ <;> decide +kernel

end Config

end Ensemble
