import Ensemble.Proofs.MembershipKey
import Ensemble.Proofs.Quorum.Grouping
import Ensemble.Proofs.Text.Fields
import Ensemble.Proofs.Text.Lines

/-!
# The canonical text as entries

The canonical text of a membership is a line `key=value` for each of its entries
(`Verifier.toList_text`). As long as no host holds a backslash or a line feed, these lines are read
as the entries they state (`Verifier.ofText_properties`).
-/

namespace Ensemble

open Text Properties

/-! ### Entries -/

namespace Server

def entry (s : Server) : List Char × List Char := ((key s.id).toList, s.text.toList)

end Server

namespace Hierarchy

def groupEntry (e : GroupId × List ServerId) : List Char × List Char :=
  ((groupKey e.1).toList, [':'].intercalate (e.2.map fun id => (decimal id.toNat).toList))

def weightEntry (e : ServerId × Weight) : List Char × List Char :=
  ((weightKey e.1).toList, (decimal e.2.toNat).toList)

end Hierarchy

def Version.entry (v : Version) : List Char × List Char :=
  (MembershipKey.version.toList, (hex v.toNat).toList)

namespace Verifier

def serverEntries (v : Verifier) : List (List Char × List Char) :=
  v.members.table.values.map Server.entry

def groupEntries : Verifier → List (List Char × List Char)
  | .majority _ => []
  | .hierarchical h => h.groups.toList.map Hierarchy.groupEntry

def weightEntries : Verifier → List (List Char × List Char)
  | .majority _ => []
  | .hierarchical h => h.weights.toList.map Hierarchy.weightEntry

/-- The entries that the canonical text states. -/
def entries (v : Verifier) : List (List Char × List Char) :=
  v.serverEntries ++ (v.groupEntries ++ (v.weightEntries ++ [v.version.entry]))

theorem toList_text (v : Verifier) :
    v.text.toList = ['\n'].intercalate (v.entries.map fun e => line e.1 e.2) := by
  have hserver : ∀ s : Server, (Server.key s.id ++ "=" ++ s.text).toList =
      line s.entry.1 s.entry.2 := by
    intro s
    simp [Server.entry, line]
  have hgroup : ∀ e : GroupId × List ServerId, (Hierarchy.groupLine e.1 e.2).toList =
      line (Hierarchy.groupEntry e).1 (Hierarchy.groupEntry e).2 := by
    intro e
    simp [Hierarchy.groupLine, Hierarchy.groupEntry, line, String.toList_intercalate,
      Function.comp_def]
  have hweight : ∀ e : ServerId × Weight, (Hierarchy.weightLine e.1 e.2).toList =
      line (Hierarchy.weightEntry e).1 (Hierarchy.weightEntry e).2 := by
    intro e
    simp [Hierarchy.weightLine, Hierarchy.weightEntry, line]
  have hversion : ∀ v : Version, v.line.toList = line v.entry.1 v.entry.2 := by
    intro v
    simp [Version.line, Version.entry, line]
  have hlines : v.lines.map String.toList = v.entries.map fun e => line e.1 e.2 := by
    cases v with
    | majority m =>
      simp [lines, Majority.lines, Members.lines, entries, serverEntries, groupEntries,
        weightEntries, members, version, Function.comp_def, hserver, hversion]
    | hierarchical h =>
      simp [lines, Hierarchy.lines, Members.lines, entries, serverEntries, groupEntries,
        weightEntries, members, version, Hierarchy.weights, Table.mapValues, Function.comp_def, hserver,
        hgroup, hversion]
      exact fun id s _ => hweight (id, s.weight)
  rw [text, String.toList_intercalate, hlines]
  rfl

/-! ### Keys -/

theorem decimal_inj {a b : UInt64} (h : decimal a.toNat = decimal b.toNat) : a = b := by
  have ha := uint64?_decimal a
  rw [h, uint64?_decimal b] at ha
  exact (Option.some.inj ha).symm

/-- A block of entries: a stem with a first character of its own, and an id each. -/
structure IsBlock (stem : String) (c : Char) (es : List (List Char × List Char)) : Prop where
  key : ∀ e ∈ es, ∃ id : UInt64, e.1 = (stem ++ decimal id.toNat).toList
  nodup : (es.map Prod.fst).Nodup
  isPlainKey : IsPlainKey stem.toList
  head? : stem.toList.head? = some c

/-- Keys of one stem differ as the ids do. -/
theorem isBlock_map {α : Type} {xs : List α} {id : α → UInt64} {stem : String} {c : Char}
    {entry : α → List Char × List Char} (h : (xs.map id).Nodup) (hkey : IsPlainKey stem.toList)
    (hhead : stem.toList.head? = some c)
    (hentry : ∀ x, (entry x).1 = (stem ++ decimal (id x).toNat).toList) :
    IsBlock stem c (xs.map entry) := by
  refine ⟨fun e he => ?_, ?_, hkey, hhead⟩
  · obtain ⟨x, -, rfl⟩ := List.mem_map.mp he
    exact ⟨id x, hentry x⟩
  · have hmap : (xs.map entry).map Prod.fst =
        (xs.map id).map fun i => (stem ++ decimal i.toNat).toList := by
      rw [List.map_map, List.map_map]
      exact List.map_congr_left fun x _ => hentry x
    rw [hmap]
    refine h.map fun a b hab => ?_
    simp only [String.toList_append, List.append_cancel_left_eq, String.toList_inj] at hab
    exact decimal_inj hab

namespace IsBlock

variable {stem : String} {c : Char} {es : List (List Char × List Char)}

theorem isPlainKey_of_mem (h : IsBlock stem c es) {e : List Char × List Char} (he : e ∈ es) :
    IsPlainKey e.1 := by
  obtain ⟨id, hid⟩ := h.key e he
  rw [hid, String.toList_append]
  exact MembershipKey.isPlainKey_append h.isPlainKey fun d hd => isAlphanum_of_mem_decimal hd

theorem head?_of_mem (h : IsBlock stem c es) {e : List Char × List Char} (he : e ∈ es) :
    e.1.head? = some c := by
  obtain ⟨id, hid⟩ := h.key e he
  rw [hid]
  exact MembershipKey.head?_append h.head? _

/-- The first character of its stem tells a block from others. -/
theorem nodup_append {fs : List (List Char × List Char)} (h : IsBlock stem c es)
    (hfs : (fs.map Prod.fst).Nodup) (hc : ∀ f ∈ fs, f.1.head? ≠ some c) :
    ((es ++ fs).map Prod.fst).Nodup := by
  rw [List.map_append]
  refine List.nodup_append.mpr ⟨h.nodup, hfs, ?_⟩
  rintro k he k' hf rfl
  obtain ⟨e, hes, rfl⟩ := List.mem_map.mp he
  obtain ⟨f, hfs, hk⟩ := List.mem_map.mp hf
  exact hc f hfs (hk ▸ h.head?_of_mem hes)

end IsBlock

variable (v : Verifier)

theorem isBlock_serverEntries : IsBlock MembershipKey.server 's' v.serverEntries :=
  isBlock_map (v.members.keys_table ▸ v.members.table.nodup_keys)
    MembershipKey.isPlainKey_server (by decide) fun _ => rfl

theorem isBlock_groupEntries : IsBlock MembershipKey.group 'g' v.groupEntries := by
  cases v with
  | majority m => exact ⟨by simp [groupEntries], by simp [groupEntries],
      MembershipKey.isPlainKey_group, by decide⟩
  | hierarchical h =>
    exact isBlock_map h.groups.nodup_keys MembershipKey.isPlainKey_group (by decide) fun _ => rfl

theorem isBlock_weightEntries : IsBlock MembershipKey.weight 'w' v.weightEntries := by
  cases v with
  | majority m => exact ⟨by simp [weightEntries], by simp [weightEntries],
      MembershipKey.isPlainKey_weight, by decide⟩
  | hierarchical h =>
    exact isBlock_map h.weights.nodup_keys MembershipKey.isPlainKey_weight (by decide) fun _ => rfl

theorem head?_version : ∀ e ∈ [v.version.entry], e.1.head? = some 'v' := by
  intro e he
  rw [List.mem_singleton.mp he]
  rfl

theorem isPlainKey_of_mem_entries {e : List Char × List Char} (h : e ∈ v.entries) :
    IsPlainKey e.1 := by
  simp only [entries, List.mem_append, List.mem_singleton] at h
  rcases h with h | h | h | rfl
  · exact v.isBlock_serverEntries.isPlainKey_of_mem h
  · exact v.isBlock_groupEntries.isPlainKey_of_mem h
  · exact v.isBlock_weightEntries.isPlainKey_of_mem h
  · exact MembershipKey.isPlainKey_version

theorem head?_of_mem_weights_version {e : List Char × List Char}
    (h : e ∈ v.weightEntries ++ [v.version.entry]) :
    e.1.head? = some 'w' ∨ e.1.head? = some 'v' := by
  rcases List.mem_append.mp h with h | h
  · exact Or.inl (v.isBlock_weightEntries.head?_of_mem h)
  · exact Or.inr (v.head?_version e h)

theorem head?_of_mem_groups_weights_version {e : List Char × List Char}
    (h : e ∈ v.groupEntries ++ (v.weightEntries ++ [v.version.entry])) :
    e.1.head? = some 'g' ∨ e.1.head? = some 'w' ∨ e.1.head? = some 'v' := by
  rcases List.mem_append.mp h with h | h
  · exact Or.inl (v.isBlock_groupEntries.head?_of_mem h)
  · exact Or.inr (v.head?_of_mem_weights_version h)

theorem nodup_keys_entries : (v.entries.map Prod.fst).Nodup := by
  refine v.isBlock_serverEntries.nodup_append (v.isBlock_groupEntries.nodup_append
    (v.isBlock_weightEntries.nodup_append (by simp) ?_) ?_) ?_
  · intro e he
    rw [v.head?_version e he]
    decide
  · intro e he
    rcases v.head?_of_mem_weights_version he with h | h <;> rw [h] <;> decide
  · intro e he
    rcases v.head?_of_mem_groups_weights_version he with h | h | h <;> rw [h] <;> decide

/-! ### Values -/

/-- No host holds a backslash or a line feed. -/
def HasUnescapedHosts (v : Verifier) : Prop :=
  ∀ s ∈ v.members.table.values, '\\' ∉ s.hostChars ∧ '\n' ∉ s.hostChars

/-- A value that stands on a line as it is. -/
structure IsLineValue (value : List Char) : Prop where
  backslash : '\\' ∉ value
  lineFeed : '\n' ∉ value
  last : value.getLast? ≠ some '\r'

theorem isLineValue_of_chars {value : List Char} (h : ∀ c ∈ value, c.isAlphanum ∨ c = ':') :
    IsLineValue value := by
  refine ⟨fun hc => ?_, fun hc => ?_, fun hc => ?_⟩
  · exact absurd (h _ hc) (by decide)
  · exact absurd (h _ hc) (by decide)
  · exact absurd (h _ (List.mem_of_getLast? hc)) (by decide)

theorem isLineValue_text {s : Server} (hs : '\\' ∉ s.hostChars ∧ '\n' ∉ s.hostChars) :
    IsLineValue s.text.toList := by
  refine ⟨?_, ?_, ?_⟩
  · rw [← List.count_eq_zero, Server.count_text (by decide) (by decide), List.count_eq_zero]
    exact hs.1
  · rw [← List.count_eq_zero, Server.count_text (by decide) (by decide), List.count_eq_zero]
    exact hs.2
  · intro h
    have hlast : s.text.toList.getLast? = s.role.text.toList.getLast? := by
      obtain ⟨cs, c, hr, -⟩ := Server.getLast?_role s.role
      rw [Server.toList_text]
      by_cases hnil : s.tokens = []
      · simp [hnil]
      · rw [Server.intercalate_concat hnil, hr, List.getLast?_append, List.getLast?_cons]
        simp
    rw [hlast] at h
    revert h
    cases s.role <;> decide

variable {v}

/-- Ids, weights and versions stand on a line whatever they are. -/
theorem isLineValue_of_mem_groups_weights_version {e : List Char × List Char}
    (h : e ∈ v.groupEntries ++ (v.weightEntries ++ [v.version.entry])) : IsLineValue e.2 := by
  simp only [List.mem_append, List.mem_singleton] at h
  rcases h with h | h | rfl
  · cases v with
    | majority m => cases h
    | hierarchical h' =>
      obtain ⟨g, -, rfl⟩ := List.mem_map.mp h
      apply isLineValue_of_chars
      intro c hc
      rcases mem_intercalate hc with rfl | ⟨p, hp, hc⟩
      · exact Or.inr rfl
      · obtain ⟨id, -, rfl⟩ := List.mem_map.mp hp
        exact Or.inl (isAlphanum_of_mem_decimal hc)
  · cases v with
    | majority m => cases h
    | hierarchical h' =>
      obtain ⟨w, -, rfl⟩ := List.mem_map.mp h
      exact isLineValue_of_chars fun c hc => Or.inl (isAlphanum_of_mem_decimal hc)
  · exact isLineValue_of_chars fun c hc => Or.inl (isAlphanum_of_mem_hex hc)

theorem isLineValue_of_mem_entries (hv : v.HasUnescapedHosts) {e : List Char × List Char}
    (h : e ∈ v.entries) : IsLineValue e.2 := by
  rcases List.mem_append.mp h with h | h
  · obtain ⟨s, hs, rfl⟩ := List.mem_map.mp h
    exact isLineValue_text (hv s hs)
  · exact isLineValue_of_mem_groups_weights_version h

/-! ### The properties of the text -/

/-- An entry as it is read. -/
def readPair (e : List Char × List Char) : String × String :=
  (String.ofList e.1, String.ofList (trim e.2))

/-- The table of the entries. -/
def properties (v : Verifier) : Properties := Table.ofList (v.entries.map readPair)

theorem isLine_line {key value : List Char} (hkey : IsPlainKey key) (hvalue : IsLineValue value) :
    IsLine (line key value) := by
  constructor
  · intro h
    rcases List.mem_append.mp h with h | h
    · exact absurd (hkey.chars _ h).1 (by decide)
    · exact hvalue.lineFeed (by simpa using h)
  · intro h
    cases hv : value with
    | nil => simp [line, hv] at h
    | cons c cs =>
      refine hvalue.last ?_
      rw [line, List.getLast?_append, hv, List.getLast?_cons_cons] at h
      rw [hv]
      cases hlast : (c :: cs).getLast? with
      | none => simp at hlast
      | some d => simpa [hlast] using h

theorem isLine_of_mem_entries (hv : v.HasUnescapedHosts) {e : List Char × List Char}
    (h : e ∈ v.entries) : IsLine (line e.1 e.2) :=
  isLine_line (v.isPlainKey_of_mem_entries h) (isLineValue_of_mem_entries hv h)

theorem lines_text (hv : v.HasUnescapedHosts) :
    Text.lines v.text.toList = v.entries.map fun e => line e.1 e.2 := by
  rw [toList_text, lines_intercalate]
  · intro l hl
    obtain ⟨e, he, rfl⟩ := List.mem_map.mp hl
    exact isLine_of_mem_entries hv he
  · intro l hl
    obtain ⟨e, he, rfl⟩ := List.mem_map.mp hl
    simp [line]

/-- A text of some of the entries is read as these. -/
theorem ofText_of_lines_entries (hv : v.HasUnescapedHosts) {text : String}
    {es : List (List Char × List Char)} (hes : ∀ e ∈ es, e ∈ v.entries)
    (hlines : Text.lines text.toList = es.map fun e => line e.1 e.2) :
    Properties.ofText text = .ok (Table.ofList (es.map readPair)) := by
  have hbackslash : ∀ e ∈ es, '\\' ∉ e.2 := fun e he =>
    (isLineValue_of_mem_entries hv (hes e he)).backslash
  rw [ofText_of_lines hlines (fun e he => v.isPlainKey_of_mem_entries (hes e he))
    fun e he => continued?_eq_none_of_not_mem (hbackslash e he)]
  refine congrArg (fun es => Except.ok (Table.ofList es)) (List.map_congr_left fun e he => ?_)
  rw [unescape_of_not_mem fun h => hbackslash e he ((trim_infix_self e.2).subset h)]
  rfl

/-- **The canonical text** is read as its entries, as long as no host holds a backslash or a line
feed. -/
theorem ofText_properties (hv : v.HasUnescapedHosts) :
    Properties.ofText v.text = .ok v.properties :=
  ofText_of_lines_entries hv (fun _ he => he) (lines_text hv)

theorem perm_toList_properties (v : Verifier) :
    v.properties.toList.Perm (v.entries.map readPair) := by
  refine Table.perm_toList_ofList ?_
  have hmap : (v.entries.map readPair).map Prod.fst =
      (v.entries.map Prod.fst).map String.ofList := by
    rw [List.map_map, List.map_map]
    rfl
  rw [hmap]
  exact v.nodup_keys_entries.map fun a b hab => String.ofList_injective hab

end Verifier

end Ensemble
