import Ensemble.Properties.Reader
import Ensemble.Proofs.Except
import Ensemble.Proofs.Text.Blank
import Mathlib.Data.List.Induction

/-!
# Entries read back

A line `key=value` with a plain key (`IsPlainKey`) and a value that does not ask for the next line
gives that key, and the value without blanks around it and with its escapes resolved
(`entry_of_isPlainKey`). A text of such lines gives the table of these entries
(`ofText_of_lines`).
-/

namespace Ensemble.Properties

open Text

/-- A key that is read as it is written: not empty, no mark of a comment at its start, and nothing
in it that ends a key or has a meaning of its own. -/
structure IsPlainKey (key : List Char) : Prop where
  ne_nil : key ≠ []
  chars : ∀ c ∈ key, isBlank c = false ∧ c ≠ '=' ∧ c ≠ ':' ∧ c ≠ '\\'
  head : ∀ c ∈ key.head?, c ≠ '#' ∧ c ≠ '!'

instance (key : List Char) : Decidable (IsPlainKey key) :=
  decidable_of_iff (key ≠ [] ∧
      (key.all fun c => !isBlank c && c ≠ '=' && c ≠ ':' && c ≠ '\\') ∧
      key.head?.all fun c => c ≠ '#' && c ≠ '!') <| by
    simp only [List.all_eq_true, Option.all_eq_true, Bool.and_eq_true, Bool.not_eq_true',
      decide_eq_true_eq, and_assoc]
    exact ⟨fun ⟨h1, h2, h3⟩ => ⟨h1, h2, h3⟩, fun h => ⟨h.ne_nil, h.chars, h.head⟩⟩

/-- A line that states an entry. -/
def line (key value : List Char) : List Char := key ++ '=' :: value

/-! ### Keys -/

theorem splitKey_cons_of_ne {c : Char} (h : c ≠ '\\') (cs : List Char) :
    splitKey (c :: cs) =
      if c = '=' ∨ c = ':' then ([], cs)
      else if isBlank c then ([], afterBlank cs)
      else (c :: (splitKey cs).1, (splitKey cs).2) := by
  rw [splitKey.eq_def]
  split
  · simp_all
  · simp_all
  · simp_all
  · rename_i heq
    cases heq
    rfl

theorem splitKey_append {key : List Char}
    (h : ∀ c ∈ key, isBlank c = false ∧ c ≠ '=' ∧ c ≠ ':' ∧ c ≠ '\\') (value : List Char) :
    splitKey (line key value) = (key, value) := by
  induction key with
  | nil => simp [line, splitKey]
  | cons c key ih =>
    obtain ⟨hblank, heq, hcolon, hslash⟩ := h c (by simp)
    have hkey := ih fun d hd => h d (by simp [hd])
    change splitKey (c :: line key value) = _
    rw [splitKey_cons_of_ne hslash, hkey]
    simp [heq, hcolon, hblank]

theorem IsPlainKey.isBlank_head? {key : List Char} (h : IsPlainKey key) :
    ∀ c ∈ key.head?, isBlank c = false := fun c hc => (h.chars c (List.mem_of_head? hc)).1

theorem trim_line {key : List Char} (h : IsPlainKey key) (value : List Char) :
    trim (line key value) = line key (trimEnd value) :=
  trim_append_cons h.isBlank_head? (by decide) value

/-- **An entry** with a plain key is read as that key and the value, trimmed and with its escapes
resolved. -/
theorem entry_of_isPlainKey {key : List Char} (h : IsPlainKey key) (n : Nat) (value : List Char) :
    entry n (line key value) =
      .ok (String.ofList key, String.ofList (unescape (trim value))) := by
  unfold entry
  simp only [trim_line h, splitKey_append h.chars, trim_trimEnd, if_neg h.ne_nil]
  rfl

/-- The entry that a logical line states, if it has a key. -/
def readLine (l : List Char) : String × String :=
  (String.ofList (splitKey (trim l)).1, String.ofList (unescape (trim (splitKey (trim l)).2)))

theorem entry_eq_ok_iff {n : Nat} {l : List Char} {e : String × String} :
    entry n l = .ok e ↔ (splitKey (trim l)).1 ≠ [] ∧ e = readLine l := by
  unfold entry
  simp only
  split
  · rename_i hnil
    exact iff_of_false (by rintro ⟨⟩) fun h => h.1 hnil
  · rename_i hne
    exact ⟨fun h => ⟨hne, (Except.ok.inj h).symm⟩, fun h => congrArg Except.ok h.2.symm⟩

/-! ### Values -/

theorem unescape_of_not_mem {cs : List Char} (h : '\\' ∉ cs) : unescape cs = cs := by
  induction cs with
  | nil => rfl
  | cons c cs ih =>
    rw [List.mem_cons, not_or] at h
    rw [unescape_cons_of_ne (Ne.symm h.1), ih h.2]

/-- How many backslashes a line ends in. -/
def endBackslashes (l : List Char) : Nat := (l.reverse.takeWhile (· == '\\')).length

/-- A line that does not ask for the next one ends in pairs of backslashes. -/
theorem continued?_eq_none_iff {l : List Char} : continued? l = none ↔ endBackslashes l % 2 = 0 := by
  unfold continued? endBackslashes
  split
  · rename_i hodd
    exact iff_of_false (by rintro ⟨⟩) (by omega)
  · exact iff_of_true rfl (by omega)

/-- What stands before a character that is no backslash does not matter. -/
theorem endBackslashes_append_cons {c : Char} (hc : c ≠ '\\') (ds cs : List Char) :
    endBackslashes (ds ++ c :: cs) = endBackslashes cs := by
  have hrev : (ds ++ c :: cs).reverse = cs.reverse ++ c :: ds.reverse := by simp
  unfold endBackslashes
  rw [hrev, List.takeWhile_append]
  split
  · rename_i hall
    have hself := (List.takeWhile_prefix (l := cs.reverse) (· == '\\')).eq_of_length hall
    simp [hself, hc]
  · rfl

theorem continued?_eq_none_of_not_mem {cs : List Char} (h : '\\' ∉ cs) : continued? cs = none := by
  rw [continued?_eq_none_iff]
  induction cs with
  | nil => rfl
  | cons c cs ih =>
    rw [List.mem_cons, not_or] at h
    rw [← ih h.2, ← endBackslashes_append_cons (Ne.symm h.1) [] cs]
    rfl

theorem continued?_line {key value : List Char} (h : continued? value = none) :
    continued? (line key value) = none := by
  rw [continued?_eq_none_iff] at h ⊢
  rw [line, endBackslashes_append_cons (by decide), h]

/-! ### Escaped values -/

theorem escape_append (cs ds : List Char) : escape (cs ++ ds) = escape cs ++ escape ds :=
  List.flatMap_append

theorem escapeChar_cases (c : Char) :
    escapeChar c = ['\\', '\\'] ∨ (∃ d, escapeChar c = ['\\', d] ∧ d ∈ ['t', 'n', 'r', 'f']) ∨
      (escapeChar c = [c] ∧ c ∉ ['\\', '\t', '\n', '\r', '\x0c']) := by
  unfold escapeChar
  split
  · exact Or.inl rfl
  · split
    · exact Or.inr (Or.inl ⟨'t', rfl, by decide⟩)
    · split
      · exact Or.inr (Or.inl ⟨'n', rfl, by decide⟩)
      · split
        · exact Or.inr (Or.inl ⟨'r', rfl, by decide⟩)
        · split
          · exact Or.inr (Or.inl ⟨'f', rfl, by decide⟩)
          · exact Or.inr (Or.inr ⟨rfl, by simp_all⟩)

theorem escapeChar_of_not_mem {c : Char} (h : c ∉ ['\\', '\t', '\n', '\r', '\x0c']) :
    escapeChar c = [c] := by
  simp only [List.mem_cons, List.not_mem_nil, or_false, not_or] at h
  obtain ⟨h1, h2, h3, h4, h5⟩ := h
  rw [escapeChar, if_neg h1, if_neg h2, if_neg h3, if_neg h4, if_neg h5]

/-- A value between two characters that are no blanks and take no escapes is trimmed once it is
escaped. -/
theorem isTrimmed_escape {a b : Char} (ha : isBlank a = false) (hb : isBlank b = false)
    (ha' : escapeChar a = [a]) (hb' : escapeChar b = [b]) (cs : List Char) :
    IsTrimmed (escape (a :: (cs ++ [b]))) := by
  have hescape : escape (a :: (cs ++ [b])) = a :: (escape cs ++ [b]) := by
    change escapeChar a ++ escape (cs ++ [b]) = _
    rw [escape_append, ha']
    simp only [escape, List.flatMap_singleton, hb']
    rfl
  rw [hescape]
  constructor
  · intro c hc
    rwa [← Option.some.inj hc]
  · intro c hc
    rw [← List.cons_append, List.getLast?_concat] at hc
    rwa [← Option.some.inj hc]

/-- An escaped value stays on its line. -/
theorem not_mem_escape {c : Char} (hc : c = '\n' ∨ c = '\r') (cs : List Char) : c ∉ escape cs := by
  intro h
  obtain ⟨d, -, hd⟩ := List.mem_flatMap.mp h
  rcases escapeChar_cases d with heq | ⟨e, heq, he⟩ | ⟨heq, hd'⟩
  · rw [heq] at hd
    rcases hc with rfl | rfl <;> simp at hd
  · rw [heq] at hd
    rcases hc with rfl | rfl <;> simp at hd he <;> subst hd <;> simp at he
  · rw [heq, List.mem_singleton] at hd
    rcases hc with rfl | rfl <;> simp [← hd] at hd'

/-- The backslashes at the end of an escaped value come in pairs. -/
theorem continued?_escape (cs : List Char) : continued? (escape cs) = none := by
  rw [continued?_eq_none_iff]
  induction cs using List.reverseRecOn with
  | nil => rfl
  | append_singleton cs c ih =>
    have hlast : escape (cs ++ [c]) = escape cs ++ escapeChar c := by
      rw [escape_append]
      simp [escape]
    rw [hlast]
    rcases escapeChar_cases c with heq | ⟨d, heq, hd⟩ | ⟨heq, hc⟩
    · have hpair : endBackslashes (escape cs ++ ['\\', '\\']) = endBackslashes (escape cs) + 2 := by
        simp [endBackslashes]
      rw [heq, hpair]
      omega
    · have hne : d ≠ '\\' := by
        rintro rfl
        simp at hd
      rw [heq, List.append_cons, endBackslashes_append_cons hne]
      rfl
    · have hne : c ≠ '\\' := by
        rintro rfl
        simp at hc
      rw [heq, endBackslashes_append_cons hne]
      rfl

/-! ### Lines -/

/-- A line that is an entry by itself: it starts with no blank and no mark of a comment, and does not
ask for the next line. -/
structure IsClosedLine (l : List Char) : Prop where
  trimStart_eq : trimStart l = l
  isIdle_eq : isIdle l = false
  continued?_eq : continued? l = none

theorem isClosedLine_line {key value : List Char} (hkey : IsPlainKey key)
    (hvalue : continued? value = none) : IsClosedLine (line key value) := by
  refine ⟨?_, ?_, continued?_line hvalue⟩
  · apply trimStart_eq_self
    intro c hc
    cases key with
    | nil => exact absurd rfl hkey.ne_nil
    | cons d key => exact hkey.isBlank_head? c (by simpa [line] using hc)
  · cases key with
    | nil => exact absurd rfl hkey.ne_nil
    | cons d key =>
      have hd := hkey.head d (by simp)
      simp [line, isIdle, hd.1, hd.2]

/-- Where no line asks for the next one, the lines that stand for something are read one by one. -/
theorem map_snd_joinLines {ls : List (List Char)} (h : ∀ l ∈ ls, continued? (trimStart l) = none)
    (n start : Nat) : (joinLines n start [] ls).map Prod.snd =
      (ls.map trimStart).filter fun l => !isIdle l := by
  induction ls generalizing n start with
  | nil => rfl
  | cons l ls ih =>
    obtain ⟨hl, hls⟩ := List.forall_mem_cons.mp h
    cases hidle : isIdle (trimStart l) with
    | true => simpa [joinLines, hidle] using ih hls (n + 1) n
    | false => simpa [joinLines, hidle, hl] using ih hls (n + 1) n

/-! ### Texts -/

theorem foldlM_eq_ok_iff {ls : List (Nat × List Char)} {props props' : Properties} :
    ls.foldlM (fun props line => do
      let (key, value) ← entry line.1 line.2
      return props.insert key value) props = .ok props' ↔
      (∀ l ∈ ls, (splitKey (trim l.2)).1 ≠ []) ∧
        props' = (ls.map fun l => readLine l.2).foldl (fun t e => t.insert e.1 e.2) props := by
  induction ls generalizing props with
  | nil => exact ⟨fun h => ⟨by simp, (Except.ok.inj h).symm⟩, fun h => congrArg Except.ok h.2.symm⟩
  | cons l ls ih =>
    rw [List.foldlM_cons, Except.bind_eq_ok_iff, List.forall_mem_cons, List.map_cons,
      List.foldl_cons, and_assoc, ← ih]
    constructor
    · rintro ⟨t, hl, hls⟩
      obtain ⟨e, he, hinsert⟩ := Except.bind_eq_ok_iff.mp hl
      obtain ⟨hne, rfl⟩ := entry_eq_ok_iff.mp he
      obtain rfl := Except.ok.inj hinsert
      exact ⟨hne, hls⟩
    · rintro ⟨hne, hls⟩
      exact ⟨_, by rw [entry_eq_ok_iff.mpr ⟨hne, rfl⟩]; rfl, hls⟩

/-- **What a text is read as**: the entries of its logical lines in turn, if each has a key. -/
theorem ofText_eq_ok_iff {text : String} {props : Properties} : ofText text = .ok props ↔
    (∀ l ∈ (logicalLines text.toList).map Prod.snd, (splitKey (trim l)).1 ≠ []) ∧
      props = Table.ofList (((logicalLines text.toList).map Prod.snd).map readLine) := by
  rw [ofText, foldlM_eq_ok_iff, List.forall_mem_map, List.map_map]
  rfl

/-- **A text of entries**, a plain key and a value on each line, reads as the table of these
entries. -/
theorem ofText_of_lines {text : String} {es : List (List Char × List Char)}
    (hlines : lines text.toList = es.map fun e => line e.1 e.2)
    (hkey : ∀ e ∈ es, IsPlainKey e.1) (hvalue : ∀ e ∈ es, continued? e.2 = none) :
    ofText text = .ok (Table.ofList (es.map fun e =>
      (String.ofList e.1, String.ofList (unescape (trim e.2))))) := by
  have hclosed : ∀ l ∈ es.map (fun e => line e.1 e.2), IsClosedLine l := by
    intro l hl
    obtain ⟨e, he, rfl⟩ := List.mem_map.mp hl
    exact isClosedLine_line (hkey e he) (hvalue e he)
  have hself : (es.map fun e => line e.1 e.2).map trimStart = es.map fun e => line e.1 e.2 :=
    (List.map_congr_left fun l hl => (hclosed l hl).trimStart_eq).trans (List.map_id _)
  have hlogical : (logicalLines text.toList).map Prod.snd = es.map fun e => line e.1 e.2 := by
    rw [logicalLines, hlines, map_snd_joinLines, hself, List.filter_eq_self]
    · intro l hl
      rw [(hclosed l hl).isIdle_eq]
      rfl
    · intro l hl
      rw [(hclosed l hl).trimStart_eq, (hclosed l hl).continued?_eq]
  have hentry : ∀ e ∈ es, (splitKey (trim (line e.1 e.2))).1 ≠ [] ∧
      (String.ofList e.1, String.ofList (unescape (trim e.2))) = readLine (line e.1 e.2) :=
    fun e he => entry_eq_ok_iff.mp (entry_of_isPlainKey (hkey e he) 0 e.2)
  rw [ofText_eq_ok_iff, hlogical, List.forall_mem_map, List.map_map]
  exact ⟨fun e he => (hentry e he).1, congrArg _ (List.map_congr_left fun e he => (hentry e he).2)⟩

end Ensemble.Properties
