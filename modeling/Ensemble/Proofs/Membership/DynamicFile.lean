import Ensemble.Proofs.Config.Loading
import Ensemble.Proofs.Membership.Naming
import Ensemble.Proofs.Membership.ReadingBack
import Ensemble.Proofs.Script.Atomicity

/-!
# What dynamic files and proposals are read as

A dynamic file states the members, its name states the version, and a proposal states both. Either is
read as the membership that was written exactly if all hosts are plain
(`Verifier.writeDynamic_readsBack_iff`). That the version comes from the name does not help a host that
is not: it costs no backslashes (`Config.costOfValues_withVersionOf_le`).

The name has to be a text: of other bytes no version is read. And a membership that is read may still
be refused for its population where the file is loaded
(`Verifier.not_forall_writeDynamic_readsBack`).
-/

namespace Ensemble

open Text Properties Script Disk Config

/-! ### The version of the name -/

theorem Properties.costOf_hex (n : Nat) : costOf (· == '\n') (hex n).toList = 0 := by
  have hnot : ∀ c, c.isAlphanum = false → c ∉ (hex n).toList := by
    intro c hc h
    rw [isAlphanum_of_mem_hex h] at hc
    cases hc
  have hn : (hex n).toList.countP (· == '\n') = 0 := List.count_eq_zero.mpr (hnot '\n' (by decide))
  have hb : (hex n).toList.count '\\' = 0 := List.count_eq_zero.mpr (hnot '\\' (by decide))
  rw [costOf, hn, hb]

theorem Config.costOfValues_withVersionOf_le (file : Path) (props : Properties) :
    costOfValues (withVersionOf file props).toList ≤ costOfEntries (· == '\n') props.toList := by
  unfold withVersionOf
  split
  · rename_i v _
    have hinsert := costOfEntries_insertEntry (· == '\n') MembershipKey.version (hex v.toNat)
      props.toList
    have hversion : costOf (· == '\n') MembershipKey.version.toList = 0 := by decide
    rw [hversion, costOf_hex, Nat.zero_add] at hinsert
    exact Nat.le_trans (costOfValues_le _) hinsert
  · exact costOfValues_le _

/-! ### What is written -/

variable {d d' : Disk} {file : Path} {v : Verifier} {keepVersion : Bool} {before : List Char}
  {name : String}

theorem exists_text?_of_writeDynamic
    (h : (writeDynamic file v keepVersion).run.Leaves d (.ok ()) d')
    (hends : file.EndsIn before name.toList) : IsShort file ∧
      ∃ l, d'.LeadsTo file l ∧ d'.text? l = some (v.fileText keepVersion) := by
  obtain ⟨hshort, l, hleads, hfile⟩ :=
    exists_file?_of_replaceFile (Action.leaves_ok_onFile_iff.mp h) hends
  rw [joinChunks_singleton] at hfile
  exact ⟨hshort, l, hleads, text?_of_file? hfile⟩

/-- The properties of the file are those of the text that is written. -/
theorem value_ofFile_of_writeDynamic
    (h : (writeDynamic file v keepVersion).run.Leaves d (.ok ()) d')
    (hends : file.EndsIn before name.toList) :
    ((Properties.ofFile file).run.run d').value = Properties.ofText (v.fileText keepVersion) := by
  obtain ⟨hshort, l, hleads, htext⟩ := exists_text?_of_writeDynamic h hends
  exact Properties.value_ofFile_of_text hshort hleads htext

/-- The proposal of the file is that of the text that is written. -/
theorem value_readPending_of_writeDynamic
    (h : (writeDynamic file v keepVersion).run.Leaves d (.ok ()) d')
    (hends : file.EndsIn before name.toList) :
    ((readPending file).run.run d').value = (Verifier.ofText (v.fileText keepVersion)).map some := by
  obtain ⟨hshort, l, hleads, htext⟩ := exists_text?_of_writeDynamic h hends
  exact value_readPending_of_text hshort hleads htext

namespace Verifier

variable {w : Verifier}

/-- A membership of the same strategy, content and version. -/
def Restores (w v : Verifier) : Prop :=
  w.strategy = v.strategy ∧ v.sameContent w ∧ w.version = v.version

theorem restores_iff : w.Restores v ↔ w = v := by
  constructor
  · rintro ⟨-, hcontent, hversion⟩
    exact (eq_of_sameContent hcontent hversion.symm).symm
  · rintro rfl
    exact ⟨rfl, w.sameContent_refl, rfl⟩

/-! ### What is read -/

/-- The membership that a text states, which leaves the version to the name of its file. -/
def IsStatedIn (w : Verifier) (file : Path) (text : String) : Prop :=
  ∃ props, Properties.ofText text = .ok props ∧ props.contains MembershipKey.version = false ∧
    foreignKey? (withVersionOf file props) = none ∧ ofProperties (withVersionOf file props) = .ok w

theorem hasUnescapedHosts_of_isStatedIn (h : v.IsStatedIn file (v.fileText false)) :
    v.HasUnescapedHosts := by
  obtain ⟨props, hprops, -, -, hv⟩ := h
  refine hasUnescapedHosts_of_ofProperties ?_ hv
  calc costOfValues (withVersionOf file props).toList
      ≤ costOfEntries (· == '\n') props.toList := costOfValues_withVersionOf_le file props
    _ ≤ (v.fileText false).toList.count '\\' := costOfEntries_ofText_le_count hprops
    _ ≤ v.text.toList.count '\\' := v.count_backslash_fileText_le false

/-- **A dynamic file** states its membership exactly if all hosts are plain. -/
theorem isStatedIn_dynamicFile_iff (v : Verifier) {l : Layout}
    (hname : l.staticFile.IsNamedByText) :
    v.IsStatedIn (l.dynamicFile v.version) (v.fileText false) ↔ v.HasPlainHosts := by
  refine iff_hasPlainHosts hasUnescapedHosts_of_isStatedIn fun hv => ?_
  obtain ⟨props, hprops, hcontains, hinsert⟩ := ofText_fileText hv
  have hwith : withVersionOf (l.dynamicFile v.version) props = v.properties := by
    rw [withVersionOf, Layout.version?_dynamicFile hname]
    exact hinsert
  constructor
  · rintro ⟨props', hprops', -, -, hread⟩
    obtain rfl := Except.ok.inj (hprops.symm.trans hprops')
    rwa [hwith] at hread
  · intro hread
    refine ⟨props, hprops, hcontains, ?_, ?_⟩
    · rw [hwith, foreignKey?_properties]
    · rwa [hwith]

/-! ### Main result -/

/-- **Dynamic files and proposals are read back** exactly if all hosts are plain: the text of the
dynamic file with the version that the name of the file states, and the text of the proposal. What is
read from the files is what these texts are read as. The name of the static file is a text. -/
theorem writeDynamic_readsBack_iff (v : Verifier) (l : Layout)
    (hname : l.staticFile.IsNamedByText) :
    ((∃ w : Verifier, w.IsStatedIn (l.dynamicFile v.version) (v.fileText false) ∧ w.Restores v) ↔
      v.HasPlainHosts) ∧
    ((∃ w : Verifier, ofText (v.fileText true) = .ok w ∧ w.Restores v) ↔ v.HasPlainHosts) ∧
    (∀ d d', (writeDynamic (l.dynamicFile v.version) v false).run.Leaves d (.ok ()) d' →
      ((Properties.ofFile (l.dynamicFile v.version)).run.run d').value =
        Properties.ofText (v.fileText false)) ∧
    ∀ d d', (writeDynamic l.nextFile v true).run.Leaves d (.ok ()) d' →
      ((readPending l.nextFile).run.run d').value = (ofText (v.fileText true)).map some := by
  obtain ⟨before, name, hends⟩ := l.staticFile.exists_endsInField
  have hdynamic := Layout.dynamicFile_endsIn hends v.version
  have hnext := Layout.nextFile_endsIn hends
  rw [← String.toList_ofList (l := name ++ ".dynamic".toList ++ '.' :: (hex v.version.toNat).toList)]
    at hdynamic
  rw [← String.toList_ofList (l := name ++ ".dynamic.next".toList)] at hnext
  simp only [restores_iff, exists_eq_right]
  exact ⟨v.isStatedIn_dynamicFile_iff hname, v.ofText_fileText_eq_ok_iff,
    fun _ _ h => value_ofFile_of_writeDynamic h hdynamic,
    fun _ _ h => value_readPending_of_writeDynamic h hnext⟩

/-- A membership of one server, in version 11. -/
def single : Verifier :=
  .majority (.ofMembers ⟨.ofList [(1, ⟨1, some ⟨"a", 3888⟩, none, .participant⟩)], by decide⟩ 11)

/-- Its dynamic file is written on an empty disk. -/
theorem writeDynamic_readsBack_iff_single : ∃ d',
    (writeDynamic ⟨"zoo.cfg.dynamic.b"⟩ single false).run.Leaves ⟨.empty, [], 0⟩ (.ok ()) d' ∧
      ((Properties.ofFile ⟨"zoo.cfg.dynamic.b"⟩).run.run d').value =
        Properties.ofText (single.fileText false) ∧
      ∃ w : Verifier, w.IsStatedIn ⟨"zoo.cfg.dynamic.b"⟩ (single.fileText false) ∧
        w.Restores single := by
  have hwrite : ((writeDynamic ⟨"zoo.cfg.dynamic.b"⟩ single false).run.run ⟨.empty, [], 0⟩).value =
      .ok () := by rfl
  have hfile : Layout.dynamicFile ⟨⟨"zoo.cfg"⟩⟩ single.version = ⟨"zoo.cfg.dynamic.b"⟩ := by
    decide +kernel
  obtain ⟨hdynamic, -, hread, -⟩ := writeDynamic_readsBack_iff single ⟨⟨"zoo.cfg"⟩⟩
    ⟨[], "zoo.cfg", by decide, by simp, by decide⟩
  rw [hfile] at hdynamic hread
  exact ⟨_, leaves_of_value hwrite, hread _ _ (leaves_of_value hwrite), hdynamic.mpr (by decide)⟩

/-- A membership of one observer, in version 2. -/
def watcher : Verifier :=
  .majority (.ofMembers ⟨.ofList [(1, ⟨1, some ⟨"a", 3888⟩, none, .observer⟩)], by decide⟩ 2)

/-- A static file that names a dynamic file of version 2. -/
def watchedDisk : Disk where
  nodes := .ofList [
    (["zoo.cfg"], .file 0 "dataDir=d\ndynamicConfigFile=zoo.cfg.dynamic.2\n".toUTF8)]
  here := []
  nextId := 1

/-- Where the name of the static file is no text, the version is lost. Where it is, a membership of
observers is written as any other, but not loaded. -/
theorem not_forall_writeDynamic_readsBack :
    (¬ ∀ (v : Verifier) (l : Layout), v.HasPlainHosts →
      ∃ w : Verifier, w.IsStatedIn (l.dynamicFile v.version) (v.fileText false) ∧ w.Restores v) ∧
    watcher.HasPlainHosts ∧ ∃ d',
      (writeDynamic ⟨"zoo.cfg.dynamic.2"⟩ watcher false).run.Leaves watchedDisk (.ok ()) d' ∧
        ((Config.ofFile {} ⟨"zoo.cfg"⟩).run.run d').value = .error (.population .observersOnly) := by
  refine ⟨fun h => ?_, by decide, ?_⟩
  · obtain ⟨w, ⟨props, hprops, -, -, hread⟩, -, -, hversion⟩ :=
      h single ⟨⟨"zoo\xff.cfg"⟩⟩ (by decide)
    have htext : Properties.ofText (single.fileText false) =
        .ok (.ofList [("server.1", "a:3888:participant")]) := by rfl
    obtain rfl := Except.ok.inj (htext.symm.trans hprops)
    have hnone : (Layout.dynamicFile ⟨⟨"zoo\xff.cfg"⟩⟩ single.version).version? = none := by
      decide +kernel
    rw [withVersionOf, hnone] at hread
    have hzero : (ofProperties (.ofList [("server.1", "a:3888:participant")])).toOption.all
        (fun w => w.version = 0) = true := by
      decide +kernel
    rw [hread] at hzero
    rw [of_decide_eq_true hzero] at hversion
    cases hversion
  · have hwrite : ((writeDynamic ⟨"zoo.cfg.dynamic.2"⟩ watcher false).run.run watchedDisk).value =
        .ok () := by rfl
    refine ⟨_, leaves_of_value hwrite, ?_⟩
    have hrefused : (((Config.ofFile {} ⟨"zoo.cfg"⟩).run.run
        ((writeDynamic ⟨"zoo.cfg.dynamic.2"⟩ watcher false).run.run watchedDisk).disk).value.map
          fun _ => ()) = .error (.population .observersOnly) := by
      decide +kernel
    cases hload : ((Config.ofFile {} ⟨"zoo.cfg"⟩).run.run
        ((writeDynamic ⟨"zoo.cfg.dynamic.2"⟩ watcher false).run.run watchedDisk).disk).value with
    | ok c =>
      rw [hload] at hrefused
      cases hrefused
    | error e =>
      rw [hload] at hrefused
      rw [Except.error.inj hrefused]

end Verifier

end Ensemble
