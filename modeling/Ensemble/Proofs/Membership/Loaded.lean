import Ensemble.Proofs.Disk.Canonical
import Ensemble.Proofs.Membership.Committing
import Ensemble.Proofs.Membership.Foreign
import Ensemble.Proofs.Membership.Serving

/-!
# From a loaded configuration to a reconfiguration

A configuration is loaded from a static file, its settings and a membership (`Config.Loaded`). Where
the files do not get in each other's way (`Config.FilesApart`), a reconfiguration that succeeds
leaves all its files at the places that belong to them (`Config.Loaded.installed`).
-/

namespace Ensemble

open Script Disk Text

/-! ### What was loaded before -/

namespace Config

variable {d : Disk} {props : Properties} {c₀ c : Config}

/-- Two configurations come from the same static settings, the role aside. -/
structure SameSetup (c₀ c : Config) : Prop where
  configFile : c.configFile = c₀.configFile
  dynamicFile : c.dynamicFile = c₀.dynamicFile
  settings : ∃ role, c.settings = { c₀.settings with peerType := role }

theorem adopt_leaves {lenient : Bool} (h : (c₀.adopt props lenient).run.Leaves d (.ok c) d) :
    c₀.ownId.run.Leaves d (.ok c.serverId) d ∧ c₀.SameSetup c := by
  obtain ⟨-, w, id, -, hid, hsettle⟩ := adopt_leaves_iff.mp h
  obtain ⟨client, role, rfl⟩ := settle_eq_ok hsettle
  exact ⟨hid, rfl, rfl, role, rfl⟩

theorem takeUp_leaves (h : (c₀.takeUp props).run.Leaves d (.ok c) d) :
    c₀.ownId.run.Leaves d (.ok c.serverId) d ∧ c₀.SameSetup c := by
  unfold takeUp at h
  cases hfile : c₀.dynamicFile with
  | none =>
    rw [hfile] at h
    exact adopt_leaves h
  | some file =>
    rw [hfile] at h
    obtain ⟨-, l, text, entries, c₁, pending, -, -, -, -, -, hadopt, -, rfl⟩ :=
      adoptFile_leaves_iff.mp h
    obtain ⟨hid, hsame⟩ := adopt_leaves hadopt
    exact ⟨hid, hsame.configFile, hsame.dynamicFile, hsame.settings⟩

/-- What a membership has to fit is not changed by the role or the dynamic file. -/
theorem SameSetup.fits_iff {v : Verifier} {file : Option Path} (h : c₀.SameSetup c) :
    Fits { c₀.withDynamicFile file with membership := some v, serverId := c.serverId } v ↔
      c.Fits v := by
  obtain ⟨role, hsettings⟩ := h.settings
  have hset : c.context = c₀.context ∧ c.settings.initLimit = c₀.settings.initLimit ∧
      c.settings.syncLimit = c₀.settings.syncLimit ∧ c.settings.client = c₀.settings.client := by
    rw [context, hsettings]
    exact ⟨rfl, rfl, rfl, rfl⟩
  obtain ⟨hcontext, hinit, hsync, hclient⟩ := hset
  constructor
  · rintro ⟨hlimits, hagrees⟩
    refine ⟨?_, ?_⟩
    · rwa [hcontext, hinit, hsync]
    · rwa [hclient]
  · rintro ⟨hlimits, hagrees⟩
    rw [hcontext, hinit, hsync] at hlimits
    rw [hclient] at hagrees
    exact ⟨hlimits, hagrees⟩

/-- A dynamic file in force holds no foreign entry. -/
theorem not_isForeign_of_takeUp {file : Path} (h : (c₀.takeUp props).run.Leaves d (.ok c) d)
    (hfile : c₀.dynamicFile = some file) :
    ∃ l text entries, d.LeadsTo file l ∧ d.text? l = some text ∧
      Properties.ofText text = .ok entries ∧ ∀ key ∈ entries.keys, ¬ IsForeign key := by
  unfold takeUp at h
  rw [hfile] at h
  obtain ⟨-, l, text, entries, c₁, pending, -, hleads, htext, hentries, -, hadopt, -⟩ :=
    adoptFile_leaves_iff.mp h
  obtain ⟨-, w, id, hread, -⟩ := adopt_leaves_iff.mp hadopt
  refine ⟨l, text, entries, hleads, htext, hentries, fun key hkey => ?_⟩
  refine foreignKey?_eq_none_iff.mp (readMembership_strict_iff.mp hread).1 key ?_
  unfold withVersionOf
  split
  · exact Table.mem_keys_insert_iff.mpr (Or.inr hkey)
  · exact hkey

end Config

/-- The file of the id has a name without a dot. -/
theorem Config.hasNoDot_of_idFile {d : Disk} {dir : Path} {l : Location}
    (h : d.LeadsTo (idFile dir) l) : HasNoDot l := by
  have hmyid : Path.IsName "myid".toList := Path.isName_of_length (by decide) (by decide)
  obtain ⟨before, hends⟩ := Path.exists_endsIn_join dir hmyid
  intro n hn
  rw [h.getLast?_eq hends] at hn
  rw [← Option.some.inj hn]
  decide

/-! ### Registries -/

theorem Registry.ofConfig_eq_ok {c : Config} {r : Registry} (h : (ofConfig c).outcome = .ok r) :
    r.context = c.context ∧ r.electionAlg = c.settings.electionAlg ∧
      r.store = c.layout.map fun layout => { layout, activeFile := c.dynamicFile : Store } := by
  obtain ⟨active, -, rfl⟩ := ofConfig_eq_ok_iff.mp h
  exact ⟨rfl, rfl, rfl⟩

/-! ### Files apart -/

/-- Where the proposal of a loaded configuration is kept. -/
def Config.proposalFile (c : Config) (staticFile : Path) : Path :=
  Store.nextFile { layout := ⟨staticFile⟩, activeFile := c.dynamicFile }

/-- The files of a configuration do not get in each other's way when a membership moves to the
dynamic file of its version, beside the static file at `p`, which from the top is `q`. -/
structure Config.FilesApart (c : Config) (d : Disk) (p q : Path) (v : Version) : Prop where
  /-- The working directory is in the tree. -/
  here : d.IsReachable d.here
  canonical_eq : d.canonical p = .ok q
  /-- The path from the top can be written. -/
  isText : q.IsText
  /-- The path from the top to the dynamic file can be opened. -/
  isShort : IsShort ((Layout.mk q).dynamicFile v)
  /-- The proposal is not kept in the static file. -/
  proposal_ne : d.canonical (c.proposalFile p) ≠ .ok q
  /-- The id of the server is not kept in the static file. -/
  idFile_ne : ∀ dir ∈ c.settings.dataDir, d.canonical (Config.idFile dir) ≠ .ok q
  /-- No other proposal lies beside the dynamic file. -/
  proposal_eq : d.isFile (Layout.mk q).nextFile →
    d.canonical (c.proposalFile p) = d.canonical (Layout.mk q).nextFile

/-! ### What was loaded -/

/-- How a configuration was loaded: from the static file `name` in a directory, by its entries and
the configuration of their settings. -/
structure Config.Loaded (base : Context) (p : Path) (d : Disk) (c : Config) (directory : Location)
    (name : String) (props : Properties) (c₀ : Config) : Prop where
  isShort : IsShort p
  endsIn : ∃ before, p.EndsIn before name.toList ∧ d.follow before = .ok directory
  leadsTo : d.LeadsTo p (directory ++ [name])
  entries : ∃ text, d.text? (directory ++ [name]) = some text ∧ Properties.ofText text = .ok props
  static : (ofStatic base (some p) props).outcome = .ok c₀
  takeUp : (c₀.takeUp props).run.Leaves d (.ok c) d

namespace Config

variable {base : Context} {p q : Path} {d d' : Disk} {c c₀ : Config} {directory next : Location}
  {name : String} {props : Properties} {v : Verifier}

theorem exists_loaded (h : (ofFile base p).run.Leaves d (.ok c) d') :
    ∃ directory name props c₀, Loaded base p d c directory name props c₀ := by
  obtain ⟨rfl, l, text, props, c₀, hshort, hleads, htext, hprops, hstatic, htake⟩ :=
    ofFile_leaves_iff.mp h
  obtain ⟨before, name, directory, hends, hfollow, rfl, -⟩ := hleads.exists_name
  refine ⟨directory, String.ofList name, props, c₀, hshort, ⟨before, ?_, hfollow⟩, hleads,
    ⟨text, htext, hprops⟩, hstatic, htake⟩
  rwa [String.toList_ofList]

namespace Loaded

variable (h : Loaded base p d c directory name props c₀)
include h

theorem sameSetup : c₀.SameSetup c := (takeUp_leaves h.takeUp).2

theorem isSome_file? : (d.file? (directory ++ [name])).isSome := by
  obtain ⟨text, htext, -⟩ := h.entries
  obtain ⟨content, hcontent, -⟩ := Option.bind_eq_some_iff.mp htext
  rw [hcontent]
  rfl

theorem ofFile_value : ((Properties.ofFile p).run.run d).value = .ok props := by
  obtain ⟨text, htext, hprops⟩ := h.entries
  exact (Properties.ofFile_leaves_iff.mpr ⟨rfl, h.isShort, _, text, h.leadsTo, htext, hprops⟩).1

theorem canonical_eq : d.canonical p = .ok (pathOf (directory ++ [name])) :=
  h.leadsTo.canonical_eq_ok_iff.mpr ⟨rfl, isSome_node?_iff.mpr (Or.inr h.isSome_file?)⟩

theorem eq_pathOf (hapart : c.FilesApart d p q v.version) : q = pathOf (directory ++ [name]) :=
  Except.ok.inj (hapart.canonical_eq.symm.trans h.canonical_eq)

/-- Other paths that lead to the static file are resolved to the same one. -/
theorem canonical_eq_of_leadsTo (hapart : c.FilesApart d p q v.version) {p' : Path}
    (hleads : d.LeadsTo p' (directory ++ [name])) : d.canonical p' = .ok q :=
  hleads.canonical_eq_ok_iff.mpr
    ⟨h.eq_pathOf hapart, isSome_node?_iff.mpr (Or.inr h.isSome_file?)⟩

theorem isReachable (hhere : d.IsReachable d.here) : IsEntryName name ∧ d.IsReachable directory := by
  obtain ⟨-, name', directory', -, -, heq, hname, hdirectory⟩ := h.leadsTo.exists_reachable hhere
  obtain ⟨rfl, hlast⟩ := List.append_inj' heq rfl
  rw [List.singleton_inj.mp hlast]
  exact ⟨hname, hdirectory⟩

/-- The dynamic file in force is not the static file. -/
theorem not_leadsTo_static {file : Path} (hfile : c.dynamicFile = some file) :
    ¬ d.LeadsTo file (directory ++ [name]) := by
  rw [h.sameSetup.dynamicFile] at hfile
  intro hleads
  obtain ⟨l, text, entries, hl, htext, hentries, hforeign⟩ := not_isForeign_of_takeUp h.takeUp hfile
  obtain ⟨text', htext', hprops⟩ := h.entries
  obtain rfl := hleads.unique hl
  obtain rfl := Option.some.inj (htext.symm.trans htext')
  obtain rfl := Except.ok.inj (hentries.symm.trans hprops)
  obtain ⟨s, hs, -, hdynamic, -⟩ := ofStatic_eq_ok h.static
  rw [hfile] at hdynamic
  obtain ⟨file', hfile', -⟩ := Option.map_eq_some_iff.mp hdynamic.symm
  exact hforeign _ (Settings.key_mem_of_dynamicFile hs hfile')
    ⟨by decide, by decide⟩

/-- The dynamic file in force does not start with a number. -/
theorem not_leadsTo_number {file : Path} (hfile : c.dynamicFile = some file) {l : Location}
    {text : String} {n : UInt64} (htext : d.text? l = some text)
    (hn : firstNumber? text = some n) : ¬ d.LeadsTo file l := by
  rw [h.sameSetup.dynamicFile] at hfile
  intro hleads
  obtain ⟨m, text', entries, hm, htext', hentries, hforeign⟩ :=
    not_isForeign_of_takeUp h.takeUp hfile
  obtain rfl := hleads.unique hm
  obtain rfl := Option.some.inj (htext.symm.trans htext')
  obtain ⟨key, hkey, hkey'⟩ := exists_foreign_of_firstNumber? hn hentries
  exact hforeign key hkey hkey'

/-- The directory that the proposal is kept in. -/
theorem exists_proposal : ∃ (before : List Char) (other : String) (directory' : Location),
    (c.proposalFile p).EndsIn before other.toList ∧ d.follow before = .ok directory' ∧
      ∃ stem, other.toList = stem ++ ".next".toList := by
  cases hfile : c.dynamicFile with
  | none =>
    obtain ⟨before, hends, hfollow⟩ := h.endsIn
    have hnext : c.proposalFile p = (Layout.mk p).nextFile := by
      rw [proposalFile, Store.nextFile, hfile]
    refine ⟨before, name ++ ".dynamic.next", directory, ?_, hfollow, name.toList ++ ".dynamic".toList, ?_⟩
    · rw [hnext, String.toList_append]
      exact Layout.nextFile_endsIn (l := ⟨p⟩) hends.endsInField
    · simp
  | some file =>
    have hnext : c.proposalFile p = file.nextFile := by
      rw [proposalFile, Store.nextFile, hfile]
    rw [h.sameSetup.dynamicFile] at hfile
    obtain ⟨l, -, -, hl, -⟩ := not_isForeign_of_takeUp h.takeUp hfile
    obtain ⟨before, other, directory', hends, hfollow, -⟩ := hl.exists_name
    obtain ⟨stem, hstem, -⟩ := hends.exists_nextFile
    refine ⟨before, String.ofList (stem ++ ".next".toList), directory', ?_, hfollow, stem, ?_⟩
    · rwa [hnext, String.toList_ofList]
    · rw [String.toList_ofList]

/-- **What a reconfiguration leaves**, where the files are apart. -/
theorem installed {r r' : Registry} {a : Option Verifier}
    (hregistry : (Registry.ofConfig c).outcome = .ok r)
    (hserve : (r.serve (.reconfigure v)).Leaves d (.ok a, r') d')
    (hapart : c.FilesApart d p q v.version) :
    ∃ next, d.LeadsTo (c.proposalFile p) next ∧
      Store.Installed { layout := ⟨p⟩, activeFile := c.dynamicFile } v directory name next d d' := by
  obtain ⟨-, -, hstore⟩ := Registry.ofConfig_eq_ok hregistry
  obtain ⟨s, -, hconfigFile, -⟩ := ofStatic_eq_ok h.static
  rw [layout, h.sameSetup.configFile, hconfigFile] at hstore
  obtain ⟨-, d₁, d₂, d₃, d₄, d₅, hsteps⟩ := Registry.reconfigure_leaves hserve hstore
  obtain ⟨before, other, directory', hends, hfollow, stem, hstem⟩ := h.exists_proposal
  obtain ⟨-, hnext, -⟩ := writeDynamic_leaves hsteps.proposal hends hfollow
  refine ⟨_, hnext, hsteps.installed ⟨h.endsIn, ⟨before, other, directory', hends, hfollow, rfl,
    stem, hstem⟩, fun heq => ?_, fun file hfile => h.not_leadsTo_static hfile⟩⟩
  rw [heq] at hnext
  exact hapart.proposal_ne (h.canonical_eq_of_leadsTo hapart hnext)

/-- A membership that is reconfigured to has a population that passes. -/
theorem checkPopulation_of_serve {r r' : Registry} {a : Option Verifier}
    (hregistry : (Registry.ofConfig c).outcome = .ok r)
    (hserve : (r.serve (.reconfigure v)).Leaves d (.ok a, r') d') :
    checkPopulation v c.settings.electionAlg c.context = .ok () := by
  obtain ⟨hcontext, helectionAlg, hstore⟩ := Registry.ofConfig_eq_ok hregistry
  obtain ⟨s, -, hconfigFile, -⟩ := ofStatic_eq_ok h.static
  rw [layout, h.sameSetup.configFile, hconfigFile] at hstore
  obtain ⟨hcheck, -⟩ := Registry.reconfigure_leaves hserve hstore
  rw [← hcontext, ← helectionAlg]
  exact (Registry.checkProposal_eq_ok_iff.mp hcheck).2.2

end Loaded

end Config

end Ensemble
