import Ensemble.Proofs.Properties.Backslashes

/-!
# Escaped values

Escapes guard a value against being trimmed, except for blanks at its ends that have no escape
(`isBareBlank`): those are what an escaped value loses when it is read (`trim_escape`,
`isTrimmed_escape_iff`). An escaped value holds as many backslashes as it costs (`worth_escape`).
-/

namespace Ensemble.Properties

open Text

/-- The controls that have an escape. -/
def isControl (c : Char) : Bool := c == '\t' || c == '\n' || c == '\r' || c == '\x0c'

/-- The blanks that have no escape. -/
def isBareBlank (c : Char) : Bool := isBlank c && !isControl c

/-- The text without blanks at either end that have no escape. -/
def trimBare (cs : List Char) : List Char :=
  ((cs.dropWhile isBareBlank).reverse.dropWhile isBareBlank).reverse

theorem escapeChar_of_isBareBlank {c : Char} (h : isBareBlank c) : escapeChar c = [c] := by
  simp only [isBareBlank, isControl, Bool.and_eq_true, Bool.not_eq_true', Bool.or_eq_false_iff,
    beq_eq_false_iff_ne] at h
  obtain ⟨hblank, ⟨⟨ht, hn⟩, hr⟩, hf⟩ := h
  have hslash : c ≠ '\\' := by
    rintro rfl
    exact absurd hblank (by decide)
  exact escapeChar_of_not_mem (by simp [hslash, ht, hn, hr, hf])

/-- What is written for any other character has no blank at an end. -/
theorem isTrimmed_escapeChar {c : Char} (h : ¬ isBareBlank c) :
    escapeChar c ≠ [] ∧ IsTrimmed (escapeChar c) := by
  rcases escapeChar_cases c with heq | ⟨d, heq, hd⟩ | ⟨heq, hc⟩
  · rw [heq]
    decide
  · simp only [List.mem_cons, List.not_mem_nil, or_false] at hd
    rw [heq]
    rcases hd with rfl | rfl | rfl | rfl <;> decide
  · simp only [List.mem_cons, List.not_mem_nil, or_false, not_or] at hc
    have hblank : isBlank c = false := by
      simpa [isBareBlank, isControl, hc] using h
    rw [heq]
    simp [IsTrimmed, hblank]

theorem escape_cons (c : Char) (cs : List Char) : escape (c :: cs) = escapeChar c ++ escape cs :=
  List.flatMap_cons

theorem escape_concat (cs : List Char) (c : Char) : escape (cs ++ [c]) = escape cs ++ escapeChar c := by
  rw [escape_append]
  simp [escape]

theorem trimStart_escape (cs : List Char) :
    trimStart (escape cs) = escape (cs.dropWhile isBareBlank) := by
  induction cs with
  | nil => rfl
  | cons c cs ih =>
    by_cases hc : isBareBlank c
    · have hblank : isBlank c := (Bool.and_eq_true_iff.mp hc).1
      rw [escape_cons, escapeChar_of_isBareBlank hc, List.dropWhile_cons_of_pos hc, ← ih]
      simp [trimStart, hblank]
    · rw [List.dropWhile_cons_of_neg hc]
      refine trimStart_eq_self fun d hd => ?_
      obtain ⟨hne, htrimmed⟩ := isTrimmed_escapeChar hc
      rw [escape_cons, List.head?_append_of_ne_nil _ hne] at hd
      exact htrimmed.1 d hd

theorem trimEnd_escape (cs : List Char) :
    trimEnd (escape cs) = escape (cs.reverse.dropWhile isBareBlank).reverse := by
  induction cs using List.reverseRecOn with
  | nil => rfl
  | append_singleton cs c ih =>
    rw [List.reverse_concat]
    by_cases hc : isBareBlank c
    · have hblank : isBlank c := (Bool.and_eq_true_iff.mp hc).1
      rw [escape_concat, escapeChar_of_isBareBlank hc, List.dropWhile_cons_of_pos hc, ← ih]
      simp [trimEnd, hblank]
    · rw [List.dropWhile_cons_of_neg hc, ← List.reverse_concat, List.reverse_reverse]
      refine trimEnd_eq_self fun d hd => ?_
      obtain ⟨hne, htrimmed⟩ := isTrimmed_escapeChar hc
      rw [escape_concat, List.getLast?_append_of_ne_nil _ hne] at hd
      exact htrimmed.2 d hd

/-- **What an escaped value loses** are the blanks at its ends that have no escape. -/
theorem trim_escape (cs : List Char) : trim (escape cs) = escape (trimBare cs) := by
  rw [trim, trimStart_escape, trimEnd_escape]
  rfl

theorem unescape_trim_escape (cs : List Char) : unescape (trim (escape cs)) = trimBare cs := by
  rw [trim_escape, unescape_escape]

theorem isTrimmed_escape_iff {cs : List Char} : IsTrimmed (escape cs) ↔ trimBare cs = cs := by
  rw [← trim_eq_self_iff, trim_escape]
  constructor
  · intro h
    rw [← unescape_escape (trimBare cs), h, unescape_escape]
  · intro h
    rw [h]

theorem dropWhile_isBareBlank_eq_self_iff {cs : List Char} :
    cs.dropWhile isBareBlank = cs ↔ ∀ c ∈ cs.head?, isBareBlank c = false := by
  cases cs with
  | nil => simp
  | cons c cs =>
    cases hc : isBareBlank c with
    | false => simp [hc]
    | true =>
      have hlength := (List.dropWhile_suffix (l := cs) isBareBlank).length_le
      rw [List.dropWhile_cons_of_pos hc]
      refine iff_of_false (fun h => ?_) (by simp [hc])
      rw [h, List.length_cons] at hlength
      omega

/-- A value loses nothing exactly if it has no bare blank at an end. -/
theorem trimBare_eq_self_iff {cs : List Char} : trimBare cs = cs ↔
    (∀ c ∈ cs.head?, isBareBlank c = false) ∧ ∀ c ∈ cs.getLast?, isBareBlank c = false := by
  rw [← List.head?_reverse, ← dropWhile_isBareBlank_eq_self_iff, ← dropWhile_isBareBlank_eq_self_iff]
  constructor
  · intro h
    have hsuffix := List.dropWhile_suffix (l := cs) isBareBlank
    have hsuffix' := List.dropWhile_suffix (l := (cs.dropWhile isBareBlank).reverse) isBareBlank
    have hlength := congrArg List.length h
    rw [trimBare, List.length_reverse] at hlength
    have hlength' := hsuffix'.length_le
    rw [List.length_reverse, hlength] at hlength'
    have hstart := hsuffix.eq_of_length_le hlength'
    rw [trimBare, hstart, List.reverse_eq_iff] at h
    exact ⟨hstart, h⟩
  · rintro ⟨hstart, hend⟩
    rw [trimBare, hstart, hend, List.reverse_reverse]

theorem isTrimmed_escape_of_isTrimmed {cs : List Char} (h : IsTrimmed cs) : IsTrimmed (escape cs) := by
  have hbare : ∀ c, isBlank c = false → isBareBlank c = false := by
    intro c hc
    rw [isBareBlank, hc, Bool.false_and]
  rw [isTrimmed_escape_iff, trimBare_eq_self_iff]
  exact ⟨fun c hc => hbare c (h.1 c hc), fun c hc => hbare c (h.2 c hc)⟩

/-- An escaped value holds the backslashes that it costs, and no controls. -/
theorem worth_escape {p : Char → Bool} (hp : ∀ c, isControl c = false → p c = false)
    (cs : List Char) : worth p (escape cs) = costOf isControl cs := by
  induction cs with
  | nil => rfl
  | cons c cs ih =>
    have hchar : worth p (escapeChar c) = costOf isControl [c] := by
      by_cases hc : c ∈ ['\\', '\t', '\n', '\r', '\x0c']
      · simp only [List.mem_cons, List.not_mem_nil, or_false] at hc
        have hslash := hp '\\' rfl
        rcases hc with rfl | rfl | rfl | rfl | rfl <;>
          simp [escapeChar, worth, costOf, isControl, hslash, hp 't' rfl, hp 'n' rfl, hp 'r' rfl,
            hp 'f' rfl]
      · rw [escapeChar_of_not_mem hc]
        simp only [List.mem_cons, List.not_mem_nil, or_false, not_or] at hc
        have hcontrol : isControl c = false := by simp [isControl, hc]
        simp [worth, costOf, hcontrol, hp c hcontrol, hc.1]
    rw [escape_cons, worth_append, costOf_cons, hchar, ih]

end Ensemble.Properties
