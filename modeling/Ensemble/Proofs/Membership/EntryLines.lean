import Ensemble.Membership.Files
import Ensemble.Proofs.Properties.Escaping
import Ensemble.Proofs.Text.Lines

/-!
# Entries written as lines

Entries are written one on a line, with escapes in the values. Lines with plain keys are read as the same
keys, each with its value, less the blanks at its ends that have no escape (`ofText_join_entryLine`). So
an entry is read as it was written exactly if its value has no such blank at an end.

Main statement: `exists_ofText_entryLines`.
-/

namespace Ensemble

open Text Properties

theorem toList_entryLine (key value : String) :
    (entryLine key value).toList = line key.toList (escape value.toList) ++ ['\n'] := by
  simp [entryLine, line]

theorem isLine_line_escape {key : List Char} (hkey : IsPlainKey key) (value : List Char) :
    IsLine (line key (escape value)) := by
  have hmem : ∀ c, c = '\n' ∨ c = '\r' → c ∉ line key (escape value) := by
    intro c hc h
    rcases List.mem_append.mp h with h | h
    · have hblank := (hkey.chars c h).1
      rcases hc with rfl | rfl <;> exact absurd hblank (by decide)
    · rcases List.mem_cons.mp h with h | h
      · rcases hc with rfl | rfl <;> exact absurd h (by decide)
      · exact not_mem_escape hc value h
  exact ⟨hmem _ (Or.inl rfl), fun h => hmem _ (Or.inr rfl) (List.mem_of_getLast? h)⟩

variable {es : List (String × String)}

/-- An entry without the blanks at the ends of its value that have no escape. -/
def bareEntry (e : String × String) : String × String := (e.1, String.ofList (trimBare e.2.toList))

/-- **Lines of entries** with plain keys are read as these entries, less the bare blanks at the ends of
their values. -/
theorem ofText_join_entryLine (h : ∀ e ∈ es, IsPlainKey e.1.toList) :
    Properties.ofText (String.join (es.map fun e => entryLine e.1 e.2)) =
      .ok (Table.ofList (es.map bareEntry)) := by
  have htext : (String.join (es.map fun e => entryLine e.1 e.2)).toList =
      (es.map fun e => line e.1.toList (escape e.2.toList)).flatMap fun l => l ++ ['\n'] := by
    rw [String.toList_join, List.flatMap_map, List.flatMap_map]
    simp only [toList_entryLine]
  have hlines : lines (String.join (es.map fun e => entryLine e.1 e.2)).toList =
      (es.map fun e => (e.1.toList, escape e.2.toList)).map fun e => line e.1 e.2 := by
    rw [htext, lines_flatMap, List.map_map]
    · rfl
    · intro l hl
      obtain ⟨e, he, rfl⟩ := List.mem_map.mp hl
      exact isLine_line_escape (h e he) _
  rw [ofText_of_lines hlines, List.map_map]
  · have hes : es.map ((fun e : List Char × List Char =>
        (String.ofList e.1, String.ofList (unescape (trim e.2)))) ∘
          fun e => (e.1.toList, escape e.2.toList)) = es.map bareEntry :=
      List.map_congr_left fun e _ => by simp [unescape_trim_escape, bareEntry]
    rw [hes]
  · intro e he
    obtain ⟨e', he', rfl⟩ := List.mem_map.mp he
    exact h e' he'
  · intro e he
    obtain ⟨e', he', rfl⟩ := List.mem_map.mp he
    exact continued?_escape _

theorem bareEntry_eq_self_iff {e : String × String} :
    bareEntry e = e ↔ trimBare e.2.toList = e.2.toList := by
  constructor
  · intro h
    rw [← String.ofList_inj, String.ofList_toList]
    exact congrArg Prod.snd h
  · intro h
    rw [bareEntry, h, String.ofList_toList]

/-- Entries without such blanks are read as they are. -/
theorem ofText_entryLines (h : ∀ e ∈ es, IsPlainKey e.1.toList ∧ IsTrimmed (escape e.2.toList)) :
    Properties.ofText (String.join (es.map fun e => entryLine e.1 e.2)) = .ok (Table.ofList es) := by
  have hself : es.map bareEntry = es := by
    refine (List.map_congr_left fun e he => ?_).trans (List.map_id es)
    exact bareEntry_eq_self_iff.mpr (isTrimmed_escape_iff.mp (h e he).2)
  rw [ofText_join_entryLine fun e he => (h e he).1, hself]

/-! ### The last line of a static file -/

theorem getLast?_lines_staticText (props : Properties) (dynamicFile : Path) (eraseClientPort : Bool) :
    (Text.lines (staticText props dynamicFile eraseClientPort).toList).getLast? =
      some ("dynamicConfigFile=".toList ++ Properties.escape dynamicFile.display.toList) := by
  have hended : ∀ entries : List (String × String),
      (String.join (entries.map fun e => entryLine e.1 e.2)).toList = [] ∨
        (String.join (entries.map fun e => entryLine e.1 e.2)).toList.getLast? = some '\n' := by
    intro entries
    rcases List.eq_nil_or_concat entries with rfl | ⟨es, e, rfl⟩
    · exact Or.inl rfl
    · right
      rw [List.concat_eq_append, List.map_append, String.join_append, String.toList_append]
      simp [toList_entryLine]
  have hkey : Properties.IsPlainKey Setting.dynamicConfigFile.key.toList := by decide
  have hline := isLine_line_escape hkey dynamicFile.display.toList
  have hlast := Text.lines_append_lineFeed hline []
  rw [staticText, String.toList_append, Text.lines_append (hended _), toList_entryLine, hlast,
    List.getLast?_append]
  rfl

/-! ### Main result -/

theorem nodup_keys_bareEntry (hes : (es.map Prod.fst).Nodup) :
    ((es.map bareEntry).map Prod.fst).Nodup := by
  rwa [List.map_map]

theorem get?_ofList_bareEntry (hes : (es.map Prod.fst).Nodup) {e : String × String} (he : e ∈ es) :
    (Table.ofList (es.map bareEntry)).get? e.1 = some (String.ofList (trimBare e.2.toList)) :=
  (Table.get?_ofList (nodup_keys_bareEntry hes) _ _).mpr (List.mem_map_of_mem he)

/-- **What a written value keeps.** Lines of entries under different plain keys are read as an entry for
each, with its key, and its value less the blanks at its ends other than tabs, line feeds, carriage
returns and form feeds. So the value under a key is the one that was written exactly if no such blank
stands at an end of it. -/
theorem exists_ofText_entryLines (hes : (es.map Prod.fst).Nodup)
    (hkeys : ∀ e ∈ es, IsPlainKey e.1.toList) :
    ∃ props, Properties.ofText (String.join (es.map fun e => entryLine e.1 e.2)) = .ok props ∧
      props.toList.Perm (es.map bareEntry) ∧
      ∀ e ∈ es, props.get? e.1 = some e.2 ↔
        (∀ c ∈ e.2.toList.head?, isBareBlank c = false) ∧
          ∀ c ∈ e.2.toList.getLast?, isBareBlank c = false := by
  refine ⟨_, ofText_join_entryLine hkeys, Table.perm_toList_ofList (nodup_keys_bareEntry hes),
    fun e he => ?_⟩
  rw [get?_ofList_bareEntry hes he, ← trimBare_eq_self_iff, Option.some.injEq]
  rw [← String.toList_inj, String.toList_ofList]

/-- Values with an escaped and a bare blank at an end, of bare blanks only, and with a backslash and a
line feed at an end. -/
theorem exists_ofText_entryLines_blanks : ∃ props : Properties,
    Properties.ofText "a= \\tx\u00a0\nb=\u2003 \nc=y\\\\\\n\n" = .ok props ∧
      props.toList.Perm [("a", "\tx"), ("b", ""), ("c", "y\\\n")] ∧
      props.get? "a" ≠ some " \tx\u00a0" ∧ props.get? "c" = some "y\\\n" := by
  obtain ⟨props, hprops, hperm, hsame⟩ := @exists_ofText_entryLines
    [("a", " \tx\u00a0"), ("b", "\u2003 "), ("c", "y\\\n")] (by decide) (by decide)
  refine ⟨props, hprops, hperm, fun h => ?_, (hsame ("c", "y\\\n") (by simp)).mpr ?_⟩
  · have hbare := ((hsame ("a", " \tx\u00a0") (by simp)).mp h).1 ' ' rfl
    exact absurd hbare (by decide)
  · simp
    decide

end Ensemble
