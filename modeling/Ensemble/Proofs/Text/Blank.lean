import Ensemble.Text.Blank

/-!
# Trimmed texts

A text is trimmed when no blank stands at either end (`IsTrimmed`): `trim` gives such a text
(`isTrimmed_trim`) and leaves exactly those alone (`trim_eq_self_iff`). `trim_append_cons` says how
far `trim` reaches into a text with a character in it that is not blank.
-/

namespace Ensemble.Text

/-- No blank stands at either end. -/
def IsTrimmed (cs : List Char) : Prop :=
  (∀ c ∈ cs.head?, isBlank c = false) ∧ ∀ c ∈ cs.getLast?, isBlank c = false

instance (cs : List Char) : Decidable (IsTrimmed cs) :=
  decidable_of_iff ((cs.head?.all fun c => !isBlank c) ∧ cs.getLast?.all fun c => !isBlank c) <| by
    simp only [Option.all_eq_true, Bool.not_eq_true', IsTrimmed, Option.mem_def]

/-! ### At the start -/

theorem isBlank_head?_trimStart (cs : List Char) : ∀ c ∈ (trimStart cs).head?, isBlank c = false := by
  intro c hc
  have h := List.head?_dropWhile_not isBlank cs
  unfold trimStart at hc
  rw [Option.mem_def.mp hc] at h
  simpa using h

theorem trimStart_eq_self {cs : List Char} (h : ∀ c ∈ cs.head?, isBlank c = false) :
    trimStart cs = cs := by
  cases cs with
  | nil => rfl
  | cons c cs =>
    have hc : isBlank c = false := h c (by simp)
    simp [trimStart, hc]

theorem trimStart_cons {c : Char} (h : isBlank c = false) (cs : List Char) :
    trimStart (c :: cs) = c :: cs := trimStart_eq_self (by simpa using h)

theorem trimStart_suffix (cs : List Char) : trimStart cs <:+ cs := List.dropWhile_suffix _

theorem trimStart_append_cons {c : Char} (h : isBlank c = false) (ds cs : List Char) :
    trimStart (ds ++ c :: cs) = trimStart ds ++ c :: cs := by
  unfold trimStart
  rw [List.dropWhile_append]
  split
  · rename_i hnil
    rw [List.isEmpty_iff.mp hnil]
    simp [h]
  · rfl

/-! ### At the end -/

theorem trimEnd_eq_reverse (cs : List Char) : trimEnd cs = (trimStart cs.reverse).reverse := rfl

theorem trimEnd_eq_self {cs : List Char} (h : ∀ c ∈ cs.getLast?, isBlank c = false) :
    trimEnd cs = cs := by
  rw [trimEnd_eq_reverse, trimStart_eq_self (by simpa using h), List.reverse_reverse]

theorem isBlank_getLast?_trimEnd (cs : List Char) :
    ∀ c ∈ (trimEnd cs).getLast?, isBlank c = false := by
  rw [trimEnd_eq_reverse, List.getLast?_reverse]
  exact isBlank_head?_trimStart _

theorem trimEnd_prefix_self (cs : List Char) : trimEnd cs <+: cs := by
  have h := (trimStart_suffix cs.reverse)
  rw [← List.reverse_prefix, List.reverse_reverse] at h
  exact h

/-- The end is trimmed no further than to the last character that is not blank. -/
theorem trimEnd_append_cons {c : Char} (h : isBlank c = false) (ds cs : List Char) :
    trimEnd (ds ++ c :: cs) = ds ++ c :: trimEnd cs := by
  have hrev : (ds ++ c :: cs).reverse = cs.reverse ++ c :: ds.reverse := by simp
  rw [trimEnd_eq_reverse, trimEnd_eq_reverse, hrev]
  unfold trimStart
  rw [List.dropWhile_append]
  split
  · rename_i hnil
    rw [List.isEmpty_iff] at hnil
    simp [hnil, h]
  · simp

/-- A blank at the start goes only where all of the text does. -/
theorem trimEnd_cons_of_isBlank {c : Char} (h : isBlank c) (cs : List Char) :
    (trimEnd cs = [] ∧ trimEnd (c :: cs) = []) ∨ trimEnd (c :: cs) = c :: trimEnd cs := by
  simp only [trimEnd, List.reverse_cons, List.dropWhile_append, List.isEmpty_iff]
  by_cases hnil : cs.reverse.dropWhile isBlank = []
  · exact Or.inl (by simp [hnil, h])
  · exact Or.inr (by simp [hnil])

/-! ### At both ends -/

/-- What `trimEnd` takes away is blank. -/
theorem exists_trimEnd_append (cs : List Char) :
    ∃ bs, cs = trimEnd cs ++ bs ∧ ∀ c ∈ bs, isBlank c := by
  refine ⟨(cs.reverse.takeWhile isBlank).reverse, ?_, fun c hc => ?_⟩
  · rw [trimEnd, ← List.reverse_append, List.takeWhile_append_dropWhile, List.reverse_reverse]
  · exact List.all_eq_true.mp List.all_takeWhile c (List.mem_reverse.mp hc)

theorem trim_infix_self (cs : List Char) : trim cs <:+: cs :=
  (trimEnd_prefix_self _).isInfix.trans (trimStart_suffix cs).isInfix

theorem trim_eq_self {cs : List Char} (h : IsTrimmed cs) : trim cs = cs := by
  unfold trim
  rw [trimStart_eq_self h.1, trimEnd_eq_self h.2]

theorem isTrimmed_trim (cs : List Char) : IsTrimmed (trim cs) := by
  refine ⟨?_, isBlank_getLast?_trimEnd _⟩
  intro c hc
  obtain ⟨ds, hds⟩ := trimEnd_prefix_self (trimStart cs)
  have hstart := isBlank_head?_trimStart cs
  unfold trim at hc
  rw [← hds] at hstart
  refine hstart c ?_
  cases h : trimEnd (trimStart cs) with
  | nil => simp [h] at hc
  | cons d _ => simpa [h] using hc

theorem trim_eq_self_iff {cs : List Char} : trim cs = cs ↔ IsTrimmed cs := by
  constructor
  · intro h; rw [← h]; exact isTrimmed_trim cs
  · exact trim_eq_self

theorem trim_trim (cs : List Char) : trim (trim cs) = trim cs := trim_eq_self (isTrimmed_trim cs)

/-- A text that starts with no blank is trimmed only after its last character that is none. -/
theorem trim_append_cons {c : Char} {ds : List Char} (hd : ∀ d ∈ ds.head?, isBlank d = false)
    (h : isBlank c = false) (cs : List Char) : trim (ds ++ c :: cs) = ds ++ c :: trimEnd cs := by
  unfold trim
  rw [trimStart_eq_self, trimEnd_append_cons h]
  cases ds with
  | nil => simpa using h
  | cons d ds => simpa using hd

theorem isTrimmed_append_cons {c : Char} {ds cs : List Char} (hd : IsTrimmed ds)
    (h : isBlank c = false) (hc : IsTrimmed cs) : IsTrimmed (ds ++ c :: cs) := by
  constructor
  · cases ds with
    | nil => simpa using h
    | cons d ds => simpa using hd.1
  · cases cs with
    | nil => simpa using h
    | cons d cs =>
      rw [List.getLast?_append, List.getLast?_cons_cons]
      cases hlast : (d :: cs).getLast? with
      | none => simp at hlast
      | some e => simpa [hlast] using hc.2

/-- It does not matter which end is trimmed first. -/
theorem trimStart_trimEnd (cs : List Char) : trimStart (trimEnd cs) = trimEnd (trimStart cs) := by
  induction cs with
  | nil => rfl
  | cons c cs ih =>
    cases hc : isBlank c with
    | false =>
      have hcons : trimEnd (c :: cs) = c :: trimEnd cs := trimEnd_append_cons hc [] cs
      rw [hcons, trimStart_cons hc, trimStart_cons hc, hcons]
    | true =>
      have hstart : trimStart (c :: cs) = trimStart cs := by simp [trimStart, hc]
      rw [hstart, ← ih]
      rcases trimEnd_cons_of_isBlank hc cs with ⟨hnil, hcons⟩ | hcons
      · rw [hcons, hnil]
      · rw [hcons]
        simp [trimStart, hc]

theorem trim_trimEnd (cs : List Char) : trim (trimEnd cs) = trim cs := by
  unfold trim
  rw [trimStart_trimEnd, trimEnd_eq_self (isBlank_getLast?_trimEnd _)]

end Ensemble.Text
