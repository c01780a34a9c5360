import Ensemble.Proofs.Membership.EntryLines
import Ensemble.Proofs.Quorum.RoundTrip
import Ensemble.Quorum.Population
import Mathlib.Data.List.Flatten

/-!
# What the files of a membership are read as

The text of a dynamic file, which states no version, and the version that its name states are read as
the entries of the membership (`Verifier.ofText_fileText`), none of which is foreign to it
(`Verifier.foreignKey?_properties`); the text of a proposal states the version itself
(`Verifier.ofText_fileText_eq_ok_iff`). The text of a static file is read as the entries that survive and
the one that names the dynamic file (`ofText_staticText`), as long as the entries can be written
(`Properties.HasPlainEntries`).
-/

namespace Ensemble

open Text Properties

/-! ### Dynamic files -/

namespace Verifier

variable {v : Verifier}

/-- The entries that the canonical text states before the version. -/
def memberEntries (v : Verifier) : List (List Char × List Char) :=
  v.serverEntries ++ (v.groupEntries ++ v.weightEntries)

theorem entries_eq (v : Verifier) : v.entries = v.memberEntries ++ [v.version.entry] := by
  simp [entries, memberEntries]

theorem mem_entries_of_mem_memberEntries {e : List Char × List Char} (h : e ∈ v.memberEntries) :
    e ∈ v.entries := by
  rw [entries_eq]
  exact List.mem_append_left _ h

theorem exists_stem_of_mem_memberEntries {e : List Char × List Char} (h : e ∈ v.memberEntries) :
    ∃ stem id, stem ∈ [MembershipKey.server, MembershipKey.group, MembershipKey.weight] ∧
      e.1 = (stem ++ id).toList := by
  rcases List.mem_append.mp h with h | h
  · obtain ⟨id, hid⟩ := v.isBlock_serverEntries.key e h
    exact ⟨_, _, by simp, hid⟩
  · rcases List.mem_append.mp h with h | h
    · obtain ⟨id, hid⟩ := v.isBlock_groupEntries.key e h
      exact ⟨_, _, by simp, hid⟩
    · obtain ⟨id, hid⟩ := v.isBlock_weightEntries.key e h
      exact ⟨_, _, by simp, hid⟩

theorem head?_ne_of_mem_memberEntries {e : List Char × List Char} (h : e ∈ v.memberEntries) :
    e.1.head? ≠ some 'v' := by
  obtain ⟨stem, id, hstem, he⟩ := exists_stem_of_mem_memberEntries h
  rw [he]
  simp only [List.mem_cons, List.not_mem_nil, or_false] at hstem
  rcases hstem with rfl | rfl | rfl
  · rw [MembershipKey.head?_append (c := 's') (by decide)]
    decide
  · rw [MembershipKey.head?_append (c := 'g') (by decide)]
    decide
  · rw [MembershipKey.head?_append (c := 'w') (by decide)]
    decide

/-- The lines that do not state the version are those of the members. -/
theorem filter_lines_text (hv : v.HasUnescapedHosts) :
    (Text.lines v.text.toList).filter (fun l => false || !"version=".toList.isPrefixOf l) =
      v.memberEntries.map fun e => line e.1 e.2 := by
  rw [lines_text hv, entries_eq, List.map_append, List.filter_append]
  have hkept : ∀ l ∈ v.memberEntries.map (fun e => line e.1 e.2),
      (false || !"version=".toList.isPrefixOf l) = true := by
    intro l hl
    obtain ⟨e, he, rfl⟩ := List.mem_map.mp hl
    have hhead : (line e.1 e.2).head? ≠ some 'v' := by
      have hne := (v.isPlainKey_of_mem_entries (mem_entries_of_mem_memberEntries he)).ne_nil
      obtain ⟨c, key, hkey⟩ := List.exists_cons_of_ne_nil hne
      have hc := head?_ne_of_mem_memberEntries he
      rw [hkey] at hc
      rw [hkey]
      exact hc
    rw [MembershipKey.isPrefixOf_of_head? (c := 'v') (by decide) hhead]
    rfl
  have hversion : "version=".toList.isPrefixOf (line v.version.entry.1 v.version.entry.2) = true := by
    rw [List.isPrefixOf_iff_prefix]
    exact ⟨v.version.entry.2, rfl⟩
  have hstated : [line v.version.entry.1 v.version.entry.2].filter
      (fun l => false || !"version=".toList.isPrefixOf l) = [] := by
    rw [List.filter_eq_nil_iff]
    intro l hl
    rw [List.mem_singleton.mp hl, hversion]
    decide
  rw [List.filter_eq_self.mpr hkept, List.map_singleton, hstated, List.append_nil]

/-- **The text of a dynamic file** states no version; with the version it is read as the entries of
the membership. -/
theorem ofText_fileText (hv : v.HasUnescapedHosts) :
    ∃ props, Properties.ofText (v.fileText false) = .ok props ∧
      props.contains MembershipKey.version = false ∧
      props.insert MembershipKey.version (hex v.version.toNat) = v.properties := by
  have htext : (v.fileText false).toList =
      ['\n'].intercalate (v.memberEntries.map fun e => line e.1 e.2) ++ ['\n'] := by
    rw [fileText, String.toList_ofList, filter_lines_text hv]
  have hread : Properties.ofText (v.fileText false) =
      .ok (Table.ofList (v.memberEntries.map readPair)) := by
    by_cases hnil : v.memberEntries = []
    · have hline : v.fileText false = "\n" := by
        rw [← String.toList_inj, htext, hnil]
        rfl
      rw [hline, hnil]
      rfl
    · refine ofText_of_lines_entries hv (fun e he => mem_entries_of_mem_memberEntries he) ?_
      rw [htext, intercalate_append_sep (by simpa using hnil), lines_flatMap]
      intro l hl
      obtain ⟨e, he, rfl⟩ := List.mem_map.mp hl
      exact isLine_of_mem_entries hv (mem_entries_of_mem_memberEntries he)
  have hpair : readPair v.version.entry = (MembershipKey.version, hex v.version.toNat) := by
    rw [readPair, Version.entry, trim_hex, String.ofList_toList, String.ofList_toList]
  refine ⟨_, hread, ?_, ?_⟩
  · rw [← Bool.not_eq_true, Table.contains_iff]
    intro hkey
    obtain ⟨p, hp, hversion⟩ := List.mem_map.mp hkey
    obtain ⟨e, he, rfl⟩ := List.mem_map.mp (Table.mem_of_mem_ofList hp)
    have hhead := head?_ne_of_mem_memberEntries he
    rw [← String.toList_ofList (l := e.1)] at hhead
    change String.ofList e.1 = MembershipKey.version at hversion
    rw [hversion] at hhead
    exact hhead (by decide)
  · rw [properties, entries_eq, List.map_append, List.map_singleton, Table.ofList_concat, hpair]

/-- The lines that are kept have no more backslashes than the canonical text. -/
theorem count_backslash_fileText_le (v : Verifier) (keepVersion : Bool) :
    (v.fileText keepVersion).toList.count '\\' ≤ v.text.toList.count '\\' := by
  unfold fileText
  generalize hkept : (Text.lines v.text.toList).filter
    (fun line => keepVersion || !"version=".toList.isPrefixOf line) = kept
  have hcount : (String.ofList (['\n'].intercalate kept ++ ['\n'])).toList.count '\\' =
      kept.flatten.count '\\' := by
    rw [String.toList_ofList, List.count_append, count_intercalate (by decide), List.count_flatten]
    rfl
  rw [hcount, ← hkept]
  exact (List.filter_sublist.flatten.trans (flatten_lines_sublist _)).count_le _

/-- **The text of a proposal** is read as the membership exactly if all its hosts are plain. -/
theorem ofText_fileText_eq_ok_iff (v : Verifier) :
    ofText (v.fileText true) = .ok v ↔ v.HasPlainHosts := by
  have htext : (v.fileText true).toList = ['\n'].intercalate (Text.lines v.text.toList) ++ ['\n'] := by
    simp [fileText]
  refine ofText_eq_ok_iff (v.count_backslash_fileText_le true) fun hv =>
    ofText_of_lines_entries hv (fun _ he => he) ?_
  have hne : v.entries.map (fun e => line e.1 e.2) ≠ [] := by simp [entries_eq]
  rw [htext, lines_text hv, intercalate_append_sep hne, lines_flatMap]
  intro l hl
  obtain ⟨e, he, rfl⟩ := List.mem_map.mp hl
  exact isLine_of_mem_entries hv he

/-- **No entry** of a membership is foreign to it. -/
theorem foreignKey?_properties (v : Verifier) : foreignKey? v.properties = none := by
  rw [foreignKey?, List.find?_eq_none]
  intro key hkey
  obtain ⟨e, he, rfl⟩ := v.mem_keys_properties hkey
  rw [entries_eq, List.mem_append, List.mem_singleton] at he
  rcases he with he | rfl
  · obtain ⟨stem, id, hstem, hkey⟩ := exists_stem_of_mem_memberEntries he
    have hdeclares : MembershipKey.declares (stem ++ id) = true := by
      simp only [List.mem_cons, List.not_mem_nil, or_false] at hstem
      rcases hstem with rfl | rfl | rfl <;>
        simp [MembershipKey.declares, MembershipKey.startsWith_append]
    rw [hkey, String.ofList_toList, hdeclares]
    simp
  · simp [Version.entry]

end Verifier

/-! ### Static files -/

/-- Every entry that stays in a static file is read as it was once it is written: its key needs no
escapes, and no blank stands at an end of its value. -/
def Properties.HasPlainEntries (props : Properties) (eraseClientPort : Bool) : Prop :=
  ∀ e ∈ props.toList, staysInStatic eraseClientPort e.1 →
    IsPlainKey e.1.toList ∧ IsTrimmed (escape e.2.toList)

instance (props : Properties) (eraseClientPort : Bool) :
    Decidable (props.HasPlainEntries eraseClientPort) :=
  inferInstanceAs (Decidable (∀ e ∈ props.toList, staysInStatic eraseClientPort e.1 →
    IsPlainKey e.1.toList ∧ IsTrimmed (escape e.2.toList)))

/-- The entries that a static file has once it names a dynamic file. -/
def pointedEntries (props : Properties) (dynamicFile : Path) (eraseClientPort : Bool) : Properties :=
  (props.filter fun key _ => staysInStatic eraseClientPort key).insert
    Setting.dynamicConfigFile.key dynamicFile.display

/-- The entries that are written to a static file once it names a dynamic file. -/
def staticEntries (props : Properties) (dynamicFile : Path) (eraseClientPort : Bool) :
    List (String × String) :=
  (props.toList.filter fun e => staysInStatic eraseClientPort e.1) ++
    [(Setting.dynamicConfigFile.key, dynamicFile.display)]

theorem staticText_eq (props : Properties) (dynamicFile : Path) (eraseClientPort : Bool) :
    staticText props dynamicFile eraseClientPort = String.join
      ((staticEntries props dynamicFile eraseClientPort).map fun e => entryLine e.1 e.2) := by
  rw [staticText, staticEntries, List.map_append, String.join_append]
  simp

theorem ofList_staticEntries (props : Properties) (dynamicFile : Path) (eraseClientPort : Bool) :
    Table.ofList (staticEntries props dynamicFile eraseClientPort) =
      pointedEntries props dynamicFile eraseClientPort := by
  have hkept : Table.ofList (props.toList.filter fun e => staysInStatic eraseClientPort e.1) =
      props.filter fun key _ => staysInStatic eraseClientPort key :=
    Table.ofList_eq_of_perm (.refl _)
  rw [staticEntries, Table.ofList_concat, hkept]
  rfl

/-- Each entry that is written can be read back if each that stays can and the path of the dynamic
file has no blank at an end. -/
theorem forall_staticEntries_iff {props : Properties} {dynamicFile : Path} {eraseClientPort : Bool}
    (hfile : IsTrimmed (escape dynamicFile.display.toList)) :
    (∀ e ∈ staticEntries props dynamicFile eraseClientPort,
      IsPlainKey e.1.toList ∧ IsTrimmed (escape e.2.toList)) ↔
        props.HasPlainEntries eraseClientPort := by
  have hkey : IsPlainKey Setting.dynamicConfigFile.key.toList := by decide
  rw [staticEntries, List.forall_mem_append, List.forall_mem_singleton, and_iff_left ⟨hkey, hfile⟩]
  exact forall_congr' fun e => by rw [List.mem_filter, and_imp]

/-- **The text of a static file** is read as the entries that stay and the one that names the dynamic
file. -/
theorem ofText_staticText {props : Properties} {dynamicFile : Path} {eraseClientPort : Bool}
    (h : props.HasPlainEntries eraseClientPort)
    (hfile : IsTrimmed (escape dynamicFile.display.toList)) :
    Properties.ofText (staticText props dynamicFile eraseClientPort) =
      .ok (pointedEntries props dynamicFile eraseClientPort) := by
  rw [staticText_eq, ofText_entryLines ((forall_staticEntries_iff hfile).mpr h), ofList_staticEntries]

end Ensemble
