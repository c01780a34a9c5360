import Ensemble.Proofs.Membership.Loaded
import Ensemble.Proofs.Membership.ReadingBack

/-!
# A restart after a reconfiguration

After a reconfiguration that succeeds, the configuration of the same static file loads exactly if the
new membership fits what is set (`Config.Fits`), and then this membership is in force and nothing is
proposed (`Config.restart_iff`).

This is said of disks without symbolic and hard links, of files that do not get in each other's way, at
paths that are texts (`Config.FilesApart`), and of texts that the files can hold
(`Verifier.HasPlainHosts`, `Properties.HasPlainEntries`). The last is enough, but more than a restart
needs: a value with a blank at an end is read back without it, and there are settings that nobody reads.
`Config.not_comesBack` has a restart that fails for each way of what is set, of the texts and of files
in each other's way; it has none for a working directory out of the tree, or a path too long to be
opened.
-/

namespace Ensemble

open Script Disk Text

/-! ### The way to the new files -/

section Places

variable {d d' : Disk} {directory : Location} {name : String} {v : Version}

theorem dynamicFile_pathOf (directory : Location) (name : String) (v : Version) :
    (Layout.mk (pathOf (directory ++ [name]))).dynamicFile v =
      pathOf (directory ++ [dynamicName name v]) := by
  unfold Layout.dynamicFile Layout.dynamicBase
  rw [append_pathOf_concat, append_pathOf_concat, dynamicName]
  have hname : name ++ ".dynamic" ++ ("." ++ hex v.toNat) = name ++ ".dynamic." ++ hex v.toNat := by
    rw [← String.toList_inj]
    simp
  rw [hname]

theorem version?_pathOf (h : (pathOf (directory ++ [name])).IsText) :
    (pathOf (directory ++ [dynamicName name v])).version? = some v := by
  rw [← dynamicFile_pathOf]
  exact Layout.version?_dynamicFile (l := ⟨pathOf (directory ++ [name])⟩) h.isNamedByText v

theorem nextFile_pathOf (h : (pathOf (directory ++ [name])).IsText) :
    (pathOf (directory ++ [dynamicName name v])).nextFile =
      (Layout.mk (pathOf (directory ++ [name]))).nextFile := by
  rw [← dynamicFile_pathOf]
  exact Layout.nextFile_dynamicFile (l := ⟨pathOf (directory ++ [name])⟩) h.isNamedByText v

theorem isText_dynamicFile_pathOf (h : (pathOf (directory ++ [name])).IsText) (v : Version) :
    (pathOf (directory ++ [dynamicName name v])).IsText := by
  obtain ⟨t, ht⟩ := h
  rw [← dynamicFile_pathOf, ht, Layout.dynamicFile_ofText]
  exact ⟨_, rfl⟩

/-- The path of a dynamic file is read as it is written. -/
theorem isTrimmed_escape_pathOf (h : (pathOf (directory ++ [name])).IsText) (v : Version) :
    IsTrimmed (Properties.escape (pathOf (directory ++ [dynamicName name v])).display.toList) := by
  obtain hnil | ⟨ds, c, hhex⟩ := List.eq_nil_or_concat (hex v.toNat).toList
  · have hread := hex64?_hex v
    have hnone : hex64? "" = none := by decide
    rw [String.toList_eq_nil_iff.mp hnil, hnone] at hread
    cases hread
  · have hc : c.isAlphanum := isAlphanum_of_mem_hex (n := v.toNat) (by rw [hhex]; simp)
    obtain ⟨t, ht⟩ := h
    -- the text of a path from the top starts with a separator
    have htop : (utf8 t).toList = [] ++ '/' :: ((directory.flatMap fun n => n.toList ++ ['/']) ++
        name.toList) := by
      have htoList := congrArg (fun p : Path => p.text.toList) ht
      simp only [toList_pathOf_concat, directoryText] at htoList
      exact htoList.symm.trans (by simp)
    obtain ⟨x, y, hxy, hx, -⟩ := exists_append_of_utf8 (by decide) htop
    obtain rfl : x = [] := by
      have hempty : utf8 (String.ofList x) = utf8 "" := String.toList_inj.mp hx.symm
      simpa using utf8_injective hempty
    have htext : (pathOf (directory ++ [dynamicName name v])).display.toList =
        '/' :: ((y ++ ".dynamic.".toList ++ ds) ++ [c]) := by
      rw [← dynamicFile_pathOf, ht, Layout.dynamicFile_ofText, Path.display_ofText]
      simp [hxy, hhex]
    rw [htext]
    refine Properties.isTrimmed_escape (by decide) (isBlank_of_isAlphanum hc) (by decide) ?_ _
    refine Properties.escapeChar_of_not_mem fun hmem => ?_
    simp only [List.mem_cons, List.not_mem_nil, or_false] at hmem
    rcases hmem with rfl | rfl | rfl | rfl | rfl <;> exact absurd hc (by decide)

theorem locateDynamicFile_pathOf (file : Option Path) (l : Location) :
    Config.locateDynamicFile file (pathOf l) = pathOf l := by
  have htop : (pathOf l).isRelative = false := by
    rw [← Bool.not_eq_true, Path.isRelative_iff]
    simp [pathOf]
  cases file with
  | none => rfl
  | some file => simp [Config.locateDynamicFile, Path.resolveFrom, htop]

end Places

namespace Config

variable {base : Context} {p q : Path} {d d' : Disk} {c c₀ : Config} {directory next : Location}
  {name : String} {props : Properties} {v : Verifier}

namespace Loaded

variable (h : Loaded base p d c directory name props c₀)
include h

/-! ### What is read again -/

section Installed

variable (hin : Store.Installed { layout := ⟨p⟩, activeFile := c.dynamicFile } v directory name next
  d d')
  (hapart : c.FilesApart d p q v.version)
include hin hapart

/-- The id of the server is read as before. -/
theorem ownId_leaves : c₀.ownId.run.Leaves d' (.ok c.serverId) d' := by
  have hid := (takeUp_leaves h.takeUp).1
  unfold ownId at hid ⊢
  cases hdir : c₀.settings.dataDir with
  | none =>
    rw [hdir] at hid
    exact Action.leaves_ok_pure_iff.mpr ⟨(Action.leaves_ok_pure_iff.mp hid).1, rfl⟩
  | some dir =>
    rw [hdir] at hid
    obtain ⟨-, hid⟩ := readServerId_leaves_iff.mp hid
    refine readServerId_leaves_iff.mpr ⟨rfl, ?_⟩
    rcases hid with ⟨hfile, hnone⟩ | ⟨l, text, n, hshort, hleads, htext, hn, hsome⟩
    · refine Or.inl ⟨?_, hnone⟩
      rw [← Bool.not_eq_true, isFile_iff] at hfile ⊢
      rintro ⟨hshort, l, hleads, hsome⟩
      rw [hin.sameTree.leadsTo_iff] at hleads
      obtain ⟨content, hcontent⟩ := Option.isSome_iff_exists.mp hsome
      refine hfile ⟨hshort, l, hleads, ?_⟩
      rcases hin.origin l content hcontent with hplace | hbefore
      · simp only [List.mem_cons, List.not_mem_nil, or_false] at hplace
        rcases hplace with rfl | rfl | rfl
        · exact absurd rfl ((hasNoDot_of_idFile hleads).ne_concat (by simp))
        · exact absurd rfl ((hasNoDot_of_idFile hleads).ne_concat (dot_mem_dynamicName _ _))
        · exact h.isSome_file?
      · rw [hbefore]
        rfl
    · have hstatic : l ≠ directory ++ [name] := by
        rintro rfl
        obtain ⟨role, hsettings⟩ := h.sameSetup.settings
        exact hapart.idFile_ne dir (by rw [hsettings]; exact hdir)
          (h.canonical_eq_of_leadsTo hapart hleads)
      have hkept := hin.kept l (hasNoDot_of_idFile hleads) hstatic fun file hfile =>
        h.not_leadsTo_number hfile htext hn
      refine Or.inr ⟨l, text, n, hshort, hin.sameTree.leadsTo_iff.mpr hleads, ?_, hn, hsome⟩
      rw [text?_congr hkept, htext]

/-- No proposal is left beside the new dynamic file. -/
theorem isFile_nextFile (hnext : d.LeadsTo (c.proposalFile p) next) :
    d'.isFile (Layout.mk q).nextFile = false := by
  obtain ⟨hname, hdirectory⟩ := h.isReachable hapart.here
  have hq := h.eq_pathOf hapart
  rw [← Bool.not_eq_true, isFile_iff]
  rintro ⟨hshort, l, hleads, hsome⟩
  rw [hin.sameTree.leadsTo_iff] at hleads
  obtain ⟨content, hcontent⟩ := Option.isSome_iff_exists.mp hsome
  have hpath : (Layout.mk q).nextFile = pathOf (directory ++ [name ++ ".dynamic.next"]) := by
    rw [hq, Layout.nextFile, Layout.dynamicBase, append_pathOf_concat, append_pathOf_concat,
      String.append_assoc]
    rfl
  have hl : l = directory ++ [name ++ ".dynamic.next"] := by
    rw [hpath] at hleads
    refine hdirectory.eq_of_leadsTo_pathOf ?_ hleads
    rw [String.toList_append]
    exact hname.isName.append (by decide)
  rcases hin.origin l content hcontent with hplace | hbefore
  · -- no file that was written has this name
    have hbak : name ++ ".dynamic.next" ≠ name ++ ".bak" := by simp
    have hdynamic : dynamicName name v.version ≠ name ++ ".dynamic.next" :=
      @dynamicName_ne_next (name.toList ++ ".dynamic".toList) name _ v.version (by simp)
    have hstatic := @concat_ne_concat_append directory name ".dynamic.next" (by decide)
    rw [hl] at hplace
    simp only [List.mem_cons, List.not_mem_nil, or_false, List.append_cancel_left_eq,
      List.cons.injEq, and_true] at hplace
    rcases hplace with hplace | hplace | hplace
    · exact hbak hplace
    · exact hdynamic hplace.symm
    · exact hstatic (by rw [hplace])
  · -- the file was there before: it is the proposal, which is gone
    have hfile : d.isFile (Layout.mk q).nextFile :=
      isFile_iff.mpr ⟨hshort, l, hleads, by rw [hbefore]; rfl⟩
    have hsame := hapart.proposal_eq hfile
    have hcanonical : d.canonical (Layout.mk q).nextFile = .ok (pathOf l) :=
      hleads.canonical_eq_ok_iff.mpr ⟨rfl, isSome_node?_iff.mpr (Or.inr (by rw [hbefore]; rfl))⟩
    have heq := (hnext.canonical_eq_ok_iff.mp (hsame.trans hcanonical)).1
    rw [hpath, ← hl] at hleads
    obtain rfl := hnext.eq_of_pathOf_eq hapart.here hleads heq
    rw [hin.next] at hcontent
    cases hcontent

/-- The dynamic file is taken up. -/
theorem adoptFile_leaves_iff_settle (hnext : d.LeadsTo (c.proposalFile p) next)
    (hhosts : v.HasPlainHosts)
    (hpopulation : checkPopulation v c.settings.electionAlg c.context = .ok ()) {c₁ c' : Config}
    (hc₁ : c₁ = c₀.withDynamicFile (some (pathOf (directory ++ [dynamicName name v.version])))) :
    (c₁.adoptFile (pathOf (directory ++ [dynamicName name v.version]))).run.Leaves d' (.ok c') d' ↔
      ∃ c₂, (settle { c₁ with membership := some v, serverId := c.serverId }).outcome = .ok c₂ ∧
        c' = { c₂ with pending := none } := by
  obtain ⟨-, hdirectory⟩ := h.isReachable hapart.here
  have hq := h.eq_pathOf hapart
  have hpath : (pathOf (directory ++ [name])).IsText := hq ▸ hapart.isText
  obtain ⟨hunescaped, htokens⟩ := Verifier.hasPlainHosts_iff.mp hhosts
  obtain ⟨entries, hentries, hstated, hversion⟩ := Verifier.ofText_fileText hunescaped
  have hshort : IsShort (pathOf (directory ++ [dynamicName name v.version])) := by
    rw [← dynamicFile_pathOf, ← hq]
    exact hapart.isShort
  have hleads : d'.LeadsTo (pathOf (directory ++ [dynamicName name v.version]))
      (directory ++ [dynamicName name v.version]) := by
    refine hin.sameTree.leadsTo_iff.mpr (hdirectory.leadsTo_pathOf ?_)
    obtain ⟨-, name', directory', -, -, heq, hentry, -⟩ := hin.leadsTo.exists_reachable hapart.here
    obtain ⟨-, hlast⟩ := List.append_inj' heq rfl
    rw [List.singleton_inj.mp hlast]
    exact hentry
  have hpending : (readPending (pathOf (directory ++ [dynamicName name v.version])).nextFile).run.Leaves
      d' (.ok none) d' := by
    rw [nextFile_pathOf hpath, ← hq]
    exact readPending_of_not_isFile (h.isFile_nextFile hin hapart hnext)
  have hwith : withVersionOf (pathOf (directory ++ [dynamicName name v.version])) entries =
      v.properties := by
    rw [withVersionOf, version?_pathOf hpath]
    exact hversion
  obtain ⟨role, hsettings⟩ := h.sameSetup.settings
  have hread : (readMembership v.properties c₁.settings.electionAlg true false
      c₁.context).outcome = .ok v := by
    have hsame : c₁.settings.electionAlg = c.settings.electionAlg ∧ c₁.context = c.context := by
      rw [hc₁, context, context, hsettings]
      exact ⟨rfl, rfl⟩
    rw [readMembership_strict_iff, hsame.1, hsame.2]
    exact ⟨v.foreignKey?_properties, v.ofProperties_properties_eq_ok_iff.mpr htokens, hpopulation⟩
  have hid : c₁.ownId.run.Leaves d' (.ok c.serverId) d' := by
    rw [hc₁]
    exact h.ownId_leaves hin hapart
  rw [adoptFile_leaves_iff_of_text hshort hleads hin.dynamic hentries hstated hpending, hwith]
  exact exists_congr fun c₂ => and_congr_left fun _ => adopt_leaves_iff_of_read hread hid

/-- The static file is loaded again. -/
theorem ofFile_leaves_iff_settle (hnext : d.LeadsTo (c.proposalFile p) next)
    (hentries : props.HasPlainEntries false) (hhosts : v.HasPlainHosts)
    (hpopulation : checkPopulation v c.settings.electionAlg c.context = .ok ()) {c₁ c' : Config}
    (hc₁ : c₁ = c₀.withDynamicFile (some (pathOf (directory ++ [dynamicName name v.version])))) :
    (ofFile base p).run.Leaves d' (.ok c') d' ↔
      ∃ c₂, (settle { c₁ with membership := some v, serverId := c.serverId }).outcome = .ok c₂ ∧
        c' = { c₂ with pending := none } := by
  obtain ⟨text, props', htext, hprops', hstatic⟩ := hin.static
  obtain ⟨text', htext', hprops⟩ := h.entries
  obtain rfl := Option.some.inj (htext.symm.trans htext')
  obtain rfl := Except.ok.inj (hprops.symm.trans hprops')
  have hpath : (pathOf (directory ++ [name])).IsText := h.eq_pathOf hapart ▸ hapart.isText
  have hread := ofText_staticText hentries (isTrimmed_escape_pathOf hpath v.version)
  have hagain := ofStatic_pointedEntries h.static
    (pathOf (directory ++ [dynamicName name v.version]))
  rw [Path.ofText_display_iff.mpr (isText_dynamicFile_pathOf hpath v.version)] at hagain
  rw [ofFile_leaves_iff_of_text h.isShort (hin.sameTree.leadsTo_iff.mpr h.leadsTo) hstatic hread
    hagain, ← hc₁]
  have hfile : c₁.dynamicFile = some (pathOf (directory ++ [dynamicName name v.version])) := by
    rw [hc₁]
    exact congrArg some (locateDynamicFile_pathOf _ _)
  rw [takeUp_of_dynamicFile hfile]
  exact h.adoptFile_leaves_iff_settle hin hapart hnext hhosts hpopulation hc₁

end Installed

end Loaded

/-! ### Main results -/

/-- The disk that is left when what a file configures is reconfigured to `v`, if this succeeds. -/
def reconfigured (base : Context) (p : Path) (d : Disk) (v : Verifier) : Except ConfigError Disk := do
  let c ← ((ofFile base p).run.run d).value
  let r ← (Registry.ofConfig c).outcome
  let served := (r.serve (.reconfigure v)).run d
  let _ ← served.value.1
  return served.disk

theorem reconfigured_eq_ok_iff : reconfigured base p d v = .ok d' ↔ ∃ c r a r',
    ((ofFile base p).run.run d).value = .ok c ∧ (Registry.ofConfig c).outcome = .ok r ∧
      (r.serve (.reconfigure v)).Leaves d (.ok a, r') d' := by
  unfold reconfigured
  constructor
  · intro h
    obtain ⟨c, hload, h⟩ := Except.bind_eq_ok_iff.mp h
    obtain ⟨r, hregistry, h⟩ := Except.bind_eq_ok_iff.mp h
    obtain ⟨a, ha, hdisk⟩ := Except.bind_eq_ok_iff.mp h
    exact ⟨c, r, a, _, hload, hregistry, Prod.ext ha rfl, Except.ok.inj hdisk⟩
  · rintro ⟨c, r, a, r', hload, hregistry, hvalue, rfl⟩
    rw [hload, Except.bind_eq_ok_iff]
    refine ⟨c, rfl, Except.bind_eq_ok_iff.mpr ⟨r, hregistry, Except.bind_eq_ok_iff.mpr ⟨a, ?_, rfl⟩⟩⟩
    rw [hvalue]

/-- **A restart** after a reconfiguration that succeeded, on a disk without links: the configuration
loads exactly if the membership fits what is set, and then the membership is in force, and nothing is
proposed. -/
theorem restart_iff (hload : ((ofFile base p).run.run d).value = .ok c)
    (hentries : ∀ props, ((Properties.ofFile p).run.run d).value = .ok props →
      props.HasPlainEntries false)
    (hhosts : v.HasPlainHosts) (hapart : c.FilesApart d p q v.version)
    (hd' : reconfigured base p d v = .ok d') :
    ((∃ c', ((ofFile base p).run.run d').value = .ok c') ↔ c.Fits v) ∧
      ∀ c', ((ofFile base p).run.run d').value = .ok c' →
        c'.membership = some v ∧ c'.pending = none := by
  obtain ⟨directory, name, props, c₀, h⟩ := exists_loaded (leaves_of_value hload)
  obtain ⟨c₁, r, a, r', hload', hregistry, hserve⟩ := reconfigured_eq_ok_iff.mp hd'
  obtain rfl := Except.ok.inj (hload.symm.trans hload')
  obtain ⟨next, hnext, hin⟩ := h.installed hregistry hserve hapart
  have hpopulation := h.checkPopulation_of_serve hregistry hserve
  obtain ⟨-, -, -, -, hclient⟩ := ofStatic_eq_ok h.static
  have hfits := @exists_settle_iff { c₀.withDynamicFile (some (pathOf (directory ++
    [dynamicName name v.version]))) with membership := some v, serverId := c.serverId } v rfl hclient
  simp only [ofFile_value_iff, h.ofFile_leaves_iff_settle hin hapart hnext
    (hentries props h.ofFile_value) hhosts hpopulation rfl]
  rw [← h.sameSetup.fits_iff, ← hfits]
  refine ⟨⟨?_, ?_⟩, ?_⟩
  · rintro ⟨c', c₂, hsettle, -⟩
    exact ⟨c₂, hsettle⟩
  · rintro ⟨c₂, hsettle⟩
    exact ⟨_, c₂, hsettle, rfl⟩
  · rintro c' ⟨c₂, hsettle, rfl⟩
    obtain ⟨client, role, rfl⟩ := settle_eq_ok hsettle
    exact ⟨rfl, rfl⟩

/-- The files of a server on its own that may be reconfigured, with further settings. -/
def loneDisk (settings : String) : Disk where
  nodes := .ofList [
    (["zoo.cfg"], .file 0 ("dataDir=data\nreconfigEnabled=true\nsyncLimit=2\n" ++
      settings ++ "server.1=a:3888\nversion=1\n").toUTF8),
    (["data"], .directory),
    (["data", "myid"], .file 1 "1\n".toUTF8)]
  here := []
  nextId := 2

def voter (id : ServerId) (host : String) : Server := ⟨id, some ⟨host, 3888⟩, none, .participant⟩

/-- The server on its own. -/
def lone : Verifier := .majority (.ofMembers ⟨.ofList [(1, voter 1 "a")], by decide⟩ 1)

/-- The server and two others. -/
def trio : Verifier :=
  .majority (.ofMembers
    ⟨.ofList [(1, voter 1 "a"), (2, voter 2 "b"), (3, voter 3 "c")], by decide⟩ 2)

/-- What is loaded from these files if both limits are set. -/
def loneConfig : Config where
  base := {}
  settings := {
    context := { reconfig := true }
    dataDir := some ⟨"data"⟩
    dataLogDir := some ⟨"data"⟩
    initLimit := 5
    syncLimit := 2 }
  configFile := some ⟨"zoo.cfg"⟩
  serverId := some 1
  membership := some lone

theorem loneConfig_filesApart : loneConfig.FilesApart (loneDisk "initLimit=5\n") ⟨"zoo.cfg"⟩
    ⟨"/zoo.cfg"⟩ trio.version := by
  refine ⟨isReachable_nil _, by rfl, ⟨"/zoo.cfg", by decide⟩, by unfold IsShort; decide, ?_, ?_, ?_⟩
  · have hnone : (loneDisk "initLimit=5\n").canonical (loneConfig.proposalFile ⟨"zoo.cfg"⟩) =
        .error .notFound := by rfl
    rw [hnone]
    rintro ⟨⟩
  · intro dir hdir
    obtain rfl := Option.some.inj hdir
    have hid : (loneDisk "initLimit=5\n").canonical (idFile ⟨"data"⟩) = .ok ⟨"/data/myid"⟩ := by rfl
    rw [hid]
    decide
  · intro hfile
    have hnone : (loneDisk "initLimit=5\n").isFile (Layout.mk ⟨"/zoo.cfg"⟩).nextFile = false := by rfl
    rw [hnone] at hfile
    cases hfile

/-- A server on its own, with both limits set, is reconfigured to be one of three. -/
theorem restart_iff_trio : ∃ d' c',
    reconfigured {} ⟨"zoo.cfg"⟩ (loneDisk "initLimit=5\n") trio = .ok d' ∧
      ((ofFile {} ⟨"zoo.cfg"⟩).run.run d').value = .ok c' ∧
        c'.membership = some trio ∧ c'.pending = none := by
  have hload : ((ofFile {} ⟨"zoo.cfg"⟩).run.run (loneDisk "initLimit=5\n")).value =
      .ok loneConfig := by rfl
  have hentries : ∀ props, ((Properties.ofFile ⟨"zoo.cfg"⟩).run.run
      (loneDisk "initLimit=5\n")).value = .ok props → props.HasPlainEntries false := by
    intro props hprops
    have hread : ((Properties.ofFile ⟨"zoo.cfg"⟩).run.run
        (loneDisk "initLimit=5\n")).value = .ok (.ofList [
          ("dataDir", "data"), ("reconfigEnabled", "true"), ("syncLimit", "2"), ("initLimit", "5"),
          ("server.1", "a:3888"), ("version", "1")]) := by rfl
    obtain rfl := Except.ok.inj (hread.symm.trans hprops)
    decide +kernel
  have hfits : loneConfig.Fits trio := by
    refine ⟨fun _ => by decide, fun id declared configured hid hdeclared => ?_⟩
    obtain rfl := Option.some.inj hid
    have hnone : trio.clientOf? 1 = none := by rfl
    rw [hnone] at hdeclared
    cases hdeclared
  cases hd' : reconfigured {} ⟨"zoo.cfg"⟩ (loneDisk "initLimit=5\n") trio with
  | error e =>
    have hok : (reconfigured {} ⟨"zoo.cfg"⟩ (loneDisk "initLimit=5\n") trio).isOk = true :=
      by decide +kernel
    rw [hd'] at hok
    cases hok
  | ok d' =>
    have hrestart := restart_iff hload hentries (by decide +kernel) loneConfig_filesApart hd'
    obtain ⟨c', hc'⟩ := hrestart.1.mpr hfits
    exact ⟨d', c', rfl, hc', hrestart.2 c' hc'⟩

/-! ### What else may come of it -/

/-- The membership `v` is in force, and nothing is proposed. -/
def IsAt (c : Config) (v : Verifier) : Prop :=
  c.pending = none ∧ ∃ w ∈ c.membership, v.sameContent w ∧ w.version = v.version

instance (c : Config) (v : Verifier) : Decidable (c.IsAt v) := inferInstanceAs (Decidable (_ ∧ _))

/-- After a reconfiguration to `v` that succeeds, a restart comes back to `v`. -/
def ComesBack (base : Context) (p : Path) (d : Disk) (v : Verifier) : Prop :=
  ∀ d', reconfigured base p d v = .ok d' →
    ∃ c', ((ofFile base p).run.run d').value = .ok c' ∧ c'.IsAt v

/-- Whether a restart comes back, as far as it can be told by trying. -/
def comesBack (base : Context) (p : Path) (d : Disk) (v : Verifier) : Bool :=
  match reconfigured base p d v with
  | .error _ => true
  | .ok d' =>
    match ((ofFile base p).run.run d').value with
    | .error _ => false
    | .ok c' => c'.IsAt v

theorem comesBack_iff : comesBack base p d v ↔ ComesBack base p d v := by
  unfold comesBack ComesBack
  cases reconfigured base p d v with
  | error e => exact iff_of_true rfl (by rintro d' ⟨⟩)
  | ok d' =>
    cases hload : ((ofFile base p).run.run d').value with
    | error e =>
      refine iff_of_false (by simp [hload]) fun h => ?_
      obtain ⟨c', hc', -⟩ := h d' rfl
      cases hload.symm.trans hc'
    | ok c' =>
      simp only [hload, decide_eq_true_eq, Except.ok.injEq, forall_eq', exists_eq_left']

/-! #### Where a restart does not come back -/

/-- A disk with files, by their texts, and directories. -/
def diskOf (files : List (Location × String)) (directories : List Location) : Disk where
  nodes := .ofList (files.zipIdx.map (fun f => (f.1.1, .file f.2 f.1.2.toUTF8)) ++
    directories.map fun l => (l, .directory))
  here := []
  nextId := files.length

/-- The server on its own, at another host or with an endpoint for clients. -/
def loneAt (host : String) (client : Option Endpoint) : Verifier :=
  .majority (.ofMembers ⟨.ofList [(1, ⟨1, some ⟨host, 3888⟩, client, .participant⟩)], fun e he => by
    obtain rfl := List.mem_singleton.mp he
    rfl⟩ 2)

/-- Some reconfigurations succeed and do not come back: to a membership that needs limits which are
not set; to one that declares another client endpoint than the one set; to a host that the text
cannot hold; with a static entry that cannot be written; where the proposal or the id of the server
is kept in the static file; where another proposal lies beside the new dynamic file; in a directory
the name of which is no text. -/
theorem not_comesBack :
    ¬ ComesBack { reconfig := true } ⟨"z"⟩
        (diskOf [(["z"], "dataDir=d\nserver.1=a:1\n")] []) trio ∧
    ¬ ComesBack { reconfig := true } ⟨"z"⟩
        (diskOf [(["z"], "dataDir=d\nclientPort=1\nserver.1=a:1\n"), (["d", "myid"], "1")] [["d"]])
        (loneAt "a" (some ⟨"g", 2⟩)) ∧
    ¬ ComesBack { reconfig := true } ⟨"z"⟩
        (diskOf [(["z"], "dataDir=d\nserver.1=a:1\n")] []) (loneAt "a\\b" none) ∧
    ¬ ComesBack { reconfig := true } ⟨"z"⟩
        (diskOf [(["z"], "dataDir=d\nx\\nserver.2=b\nserver.1=a:1\n")] []) (loneAt "a" none) ∧
    ¬ ComesBack { reconfig := true } ⟨"z.next"⟩
        (diskOf [(["z.next"], "dataDir=d\ndynamicConfigFile=z\n"), (["z"], "server.1=a:1\n")] [])
        (loneAt "a" none) ∧
    ¬ ComesBack { reconfig := true } ⟨"d/myid"⟩
        (diskOf [(["d", "myid"], "1\ndataDir=d\nserver.1=a:1\n")] [["d"]]) (loneAt "a" none) ∧
    ¬ ComesBack { reconfig := true } ⟨"z"⟩
        (diskOf [(["z"], "dataDir=d\ndynamicConfigFile=m\n"), (["m"], "server.1=a:1\n"),
          (["z.dynamic.next"], "")] []) (loneAt "a" none) ∧
    ¬ ComesBack { reconfig := true } ⟨"\u00ff/z"⟩
        (diskOf [(["\u00ff", "z"], "dataDir=d\nserver.1=a:1\n")] [["\u00ff"]]) (loneAt "a" none) := by
  simp only [← comesBack_iff]
  refine ⟨?limits, ?client, ?host, ?entry, ?proposal, ?idFile, ?otherProposal, ?path⟩ <;>
    decide +kernel

end Config

end Ensemble
