import Ensemble.Proofs.Properties.Entries
import Ensemble.Proofs.Table
import Ensemble.Proofs.Text.Lines

/-!
# Properties of appended texts

A text whose last line is ended and ends in pairs of backslashes leaves nothing open
(`EndsLine`), so the logical lines of both texts together are those of the one and those of the
other, with the numbers counted on (`logicalLines_append`). A text is read as the last value under
each key (`Table.get?_ofList_append`) or refused for its first line without a key
(`ofText_eq_error_iff`); both are found part by part.

Main statement: `ofText_append`.
-/

namespace Ensemble.Properties

open Text

/-! ### Lines that leave nothing open -/

/-- The text is empty, or it ends its last line, which ends in pairs of backslashes. -/
def EndsLine (text : List Char) : Prop :=
  text = [] ∨ text.getLast? = some '\n' ∧
    ∃ l, (lines text).getLast? = some l ∧ endBackslashes l % 2 = 0

theorem endBackslashes_trimStart (l : List Char) : endBackslashes (trimStart l) = endBackslashes l := by
  induction l with
  | nil => rfl
  | cons c l ih =>
    cases hc : isBlank c with
    | false => rw [trimStart_cons hc]
    | true =>
      have hne : c ≠ '\\' := by
        rintro rfl
        exact absurd hc (by decide)
      have hstart : trimStart (c :: l) = trimStart l := by simp [trimStart, hc]
      rw [hstart, ih]
      exact (endBackslashes_append_cons hne [] l).symm

theorem EndsLine.lines_append {text : List Char} (h : EndsLine text) (cs : List Char) :
    lines (text ++ cs) = lines text ++ lines cs :=
  Text.lines_append (h.imp_right And.left) cs

theorem EndsLine.continued?_eq_none {text : List Char} (h : EndsLine text) :
    ∀ l ∈ (lines text).getLast?, continued? (trimStart l) = none := by
  intro l hl
  rcases h with rfl | ⟨-, l', hl', heven⟩
  · cases hl
  · obtain rfl := Option.some.inj (hl'.symm.trans hl)
    rw [continued?_eq_none_iff, endBackslashes_trimStart]
    exact heven

/-! ### Logical lines -/

/-- Logical lines, `k` lines further on. -/
def shift (k : Nat) (ls : List (Nat × List Char)) : List (Nat × List Char) :=
  ls.map fun l => (l.1 + k, l.2)

theorem joinLines_add (k : Nat) (ls : List (List Char)) (n start : Nat) (pending : List Char) :
    joinLines (n + k) (start + k) pending ls = shift k (joinLines n start pending ls) := by
  induction ls generalizing n start pending with
  | nil =>
    unfold joinLines
    split <;> rfl
  | cons raw ls ih =>
    have hnext : n + k + 1 = n + 1 + k := by omega
    simp only [joinLines, hnext, ih]
    split
    · split
      · rfl
      · split <;> rfl
    · split <;> rfl

/-- Where nothing is open, it does not matter where it would have begun. -/
theorem joinLines_nil_start (n start start' : Nat) (ls : List (List Char)) :
    joinLines n start [] ls = joinLines n start' [] ls := by
  cases ls with
  | nil => rfl
  | cons raw ls => simp only [joinLines, if_true]

/-- Lines of which the last does not ask for the next one, or no lines where nothing is open, leave
nothing open for the lines after them. -/
theorem joinLines_append {ls : List (List Char)} {pending : List Char}
    (hlast : ∀ l ∈ ls.getLast?, continued? (trimStart l) = none) (hnil : ls = [] → pending = [])
    (n start : Nat) (ms : List (List Char)) : joinLines n start pending (ls ++ ms) =
      joinLines n start pending ls ++ joinLines (n + ls.length) 0 [] ms := by
  induction ls generalizing n start pending with
  | nil =>
    obtain rfl := hnil rfl
    exact joinLines_nil_start n start 0 ms
  | cons raw ls ih =>
    have hrest : ∀ l ∈ ls.getLast?, continued? (trimStart l) = none := by
      intro l hl
      cases ls with
      | nil => cases hl
      | cons l' ls => exact hlast l (by rwa [List.getLast?_cons_cons])
    have hne : ∀ {head}, continued? (trimStart raw) = some head → ls ≠ [] := by
      rintro head hhead rfl
      rw [hlast raw rfl] at hhead
      cases hhead
    have hlen : n + (raw :: ls).length = n + 1 + ls.length := by
      rw [List.length_cons]
      omega
    -- A line that asks for the next one is not the last, so the rest of the lines is there to close
    -- what it leaves open. Every other line leaves nothing open.
    rw [List.cons_append, hlen]
    simp only [joinLines]
    split
    · split
      · exact ih hrest (fun _ => rfl) _ _
      · split
        · rename_i head hhead
          exact ih hrest (fun h => absurd h (hne hhead)) _ _
        · rw [ih hrest (fun _ => rfl), List.cons_append]
    · split
      · rename_i head hhead
        exact ih hrest (fun h => absurd h (hne hhead)) _ _
      · rw [ih hrest (fun _ => rfl), List.cons_append]

/-- **The logical lines of an appended text** are those of its parts. -/
theorem logicalLines_append {text : List Char} (h : EndsLine text) (cs : List Char) :
    logicalLines (text ++ cs) =
      logicalLines text ++ shift (lines text).length (logicalLines cs) := by
  rw [logicalLines, h.lines_append, joinLines_append h.continued?_eq_none fun _ => rfl]
  congr 1
  rw [joinLines_nil_start _ 0 (1 + (lines text).length), joinLines_add]
  rfl

/-! ### The first line without a key -/

/-- A logical line that states no key. -/
def hasNoKey (l : Nat × List Char) : Bool := (splitKey (trim l.2)).1 = []

/-- What a logical line without a key is refused for. -/
def refusal (l : Nat × List Char) : ConfigError := .malformed l.1 (String.ofList (trim l.2))

theorem foldlM_eq_error_iff {ls : List (Nat × List Char)} {props : Properties} {e : ConfigError} :
    ls.foldlM (fun props line => do
      let (key, value) ← entry line.1 line.2
      return props.insert key value) props = .error e ↔
      ∃ l, ls.find? hasNoKey = some l ∧ e = refusal l := by
  induction ls generalizing props with
  | nil => exact iff_of_false (by rintro ⟨⟩) (by rintro ⟨l, ⟨⟩, -⟩)
  | cons l ls ih =>
    rw [List.foldlM_cons]
    by_cases hkey : (splitKey (trim l.2)).1 = []
    · have hentry : entry l.1 l.2 = .error (refusal l) := if_pos hkey
      rw [hentry, List.find?_cons_of_pos (by simpa [hasNoKey] using hkey)]
      simp only [Option.some.injEq, exists_eq_left']
      exact ⟨fun h => (Except.error.inj h).symm, fun h => congrArg _ h.symm⟩
    · rw [entry_eq_ok_iff.mpr ⟨hkey, rfl⟩, List.find?_cons_of_neg (by simpa [hasNoKey] using hkey)]
      exact ih

/-- **What a text is refused for** is its first logical line without a key. -/
theorem ofText_eq_error_iff {text : String} {e : ConfigError} : ofText text = .error e ↔
    ∃ l, (logicalLines text.toList).find? hasNoKey = some l ∧ e = refusal l :=
  foldlM_eq_error_iff

theorem find?_hasNoKey_of_ok {text : String} {props : Properties} (h : ofText text = .ok props) :
    (logicalLines text.toList).find? hasNoKey = none := by
  refine List.find?_eq_none.mpr fun l hl => ?_
  simpa [hasNoKey] using (ofText_eq_ok_iff.mp h).1 l.2 (List.mem_map_of_mem hl)

theorem find?_shift (k : Nat) (ls : List (Nat × List Char)) :
    (shift k ls).find? hasNoKey = (ls.find? hasNoKey).map fun l => (l.1 + k, l.2) :=
  List.find?_map

/-! ### Appended texts -/

section Append

variable {a b : String} (ha : EndsLine a.toList)
include ha

theorem map_snd_logicalLines_append : (logicalLines (a ++ b).toList).map Prod.snd =
    (logicalLines a.toList).map Prod.snd ++ (logicalLines b.toList).map Prod.snd := by
  rw [String.toList_append, logicalLines_append ha, List.map_append, shift, List.map_map]
  rfl

theorem find?_logicalLines_append : (logicalLines (a ++ b).toList).find? hasNoKey =
    ((logicalLines a.toList).find? hasNoKey).or (((logicalLines b.toList).find? hasNoKey).map
      fun l => (l.1 + (lines a.toList).length, l.2)) := by
  rw [String.toList_append, logicalLines_append ha, List.find?_append, find?_shift]

theorem ofText_append_of_ok {p q : Properties} (hp : ofText a = .ok p) (hq : ofText b = .ok q) :
    ∃ r, ofText (a ++ b) = .ok r ∧ ∀ key, r.get? key = (q.get? key).or (p.get? key) := by
  obtain ⟨hkeys, rfl⟩ := ofText_eq_ok_iff.mp hp
  obtain ⟨hkeys', rfl⟩ := ofText_eq_ok_iff.mp hq
  refine ⟨_, ofText_eq_ok_iff.mpr ⟨?_, rfl⟩, fun key => ?_⟩
  · rw [map_snd_logicalLines_append ha, List.forall_mem_append]
    exact ⟨hkeys, hkeys'⟩
  · rw [map_snd_logicalLines_append ha, List.map_append, Table.get?_ofList_append]

end Append

/-! ### Main result -/

/-- **Reading is compositional.** Where the first of two texts ends its last line, both together are
read as the entries of the first overridden by those of the second. They are refused for what the
first one is refused for, and otherwise for what the second one is, as many lines further on as the
first one has. -/
theorem ofText_append {a b : String} (ha : EndsLine a.toList) :
    (∀ p q, ofText a = .ok p → ofText b = .ok q →
        ∃ r, ofText (a ++ b) = .ok r ∧ ∀ key, r.get? key = (q.get? key).or (p.get? key)) ∧
      (∀ e, ofText a = .error e → ofText (a ++ b) = .error e) ∧
      ∀ p e, ofText a = .ok p → ofText b = .error e →
        ∃ n entry, e = .malformed n entry ∧
          ofText (a ++ b) = .error (.malformed (n + (lines a.toList).length) entry) := by
  refine ⟨fun p q hp hq => ofText_append_of_ok ha hp hq, fun e he => ?_, fun p e hp he => ?_⟩
  · obtain ⟨l, hl, rfl⟩ := ofText_eq_error_iff.mp he
    refine ofText_eq_error_iff.mpr ⟨l, ?_, rfl⟩
    rw [find?_logicalLines_append ha, hl, Option.some_or]
  · obtain ⟨l, hl, rfl⟩ := ofText_eq_error_iff.mp he
    refine ⟨l.1, _, rfl, ofText_eq_error_iff.mpr ⟨(l.1 + (lines a.toList).length, l.2), ?_, rfl⟩⟩
    rw [find?_logicalLines_append ha, find?_hasNoKey_of_ok hp, hl]
    rfl

/-- A comment that ends in a backslash, a line in two parts, and a value that ends in a pair of
backslashes. -/
def fourLines : String := "# a\\\nk = 1\\\n  2\r\nj=x\\\\\n"

/-- A value that is overridden, and lines without a key in the second text and in the first. -/
theorem ofText_append_fourLines :
    EndsLine fourLines.toList ∧ EndsLine "=\n".toList ∧
      (∃ r, ofText (fourLines ++ "k:3") = .ok r ∧ r.get? "k" = some "3" ∧ r.get? "j" = some "x\\") ∧
      ofText (fourLines ++ "\n=y") = .error (.malformed 6 "=y") ∧
      ∀ b, ofText ("=\n" ++ b) = .error (.malformed 1 "=") := by
  have hends : EndsLine fourLines.toList := Or.inr ⟨rfl, _, rfl, rfl⟩
  have hends' : EndsLine "=\n".toList := Or.inr ⟨rfl, _, rfl, rfl⟩
  obtain ⟨r, hr, hget⟩ := (ofText_append (b := "k:3") hends).1 _ _ rfl rfl
  obtain ⟨n, entry, he, hrefused⟩ := (ofText_append (b := "\n=y") hends).2.2 _ _ rfl rfl
  obtain ⟨rfl, rfl⟩ := ConfigError.malformed.inj he
  exact ⟨hends, hends', ⟨r, hr, hget "k", hget "j"⟩, hrefused,
    fun b => (ofText_append hends').2.1 _ rfl⟩

end Ensemble.Properties
