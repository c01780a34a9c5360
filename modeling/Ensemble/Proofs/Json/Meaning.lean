import Ensemble.Proofs.Json.Lexing

/-!
# What spellings and numbers stand for

A plain text is its own spelling (`Json.spelled?_of_plain`), the digits of a word spell that word
(`Json.spelledWord?_toDigits`), and a word is a number that a double can hold
(`JsonNumber.isFinite_integer`).
-/

namespace Ensemble

open Text

/-! ### Spellings -/

namespace Json

theorem codes_of_plain {cs : List Char} (h : ∀ c ∈ cs, IsPlainChar c) :
    codes cs = cs.map Char.toNat := by
  induction cs with
  | nil => rfl
  | cons c cs ih =>
    obtain ⟨⟨-, hc, -⟩, hcs⟩ := List.forall_mem_cons.mp h
    simp [codes, hc, ih hcs]

/-- No character is half of a surrogate pair. -/
theorem not_isSurrogate (c : Char) :
    isHighSurrogate c.toNat = false ∧ isLowSurrogate c.toNat = false := by
  have hvalid : c.toNat < 0xD800 ∨ 0xDFFF < c.toNat ∧ c.toNat < 0x110000 := c.valid
  simp only [isHighSurrogate, isLowSurrogate, decide_eq_false_iff_not]
  omega

theorem charsOfCodes?_map_toNat (cs : List Char) : charsOfCodes? (cs.map Char.toNat) = some cs := by
  induction cs with
  | nil => rfl
  | cons c cs ih =>
    obtain ⟨hhigh, hlow⟩ := not_isSurrogate c
    cases cs with
    | nil => simp [charsOfCodes?, hhigh, hlow]
    | cons d cs =>
      rw [List.map_cons] at ih
      simp [charsOfCodes?, hhigh, hlow, ih]

/-- A plain text is its own spelling. -/
theorem spelled?_of_plain {s : String} (h : ∀ c ∈ s.toList, IsPlainChar c) :
    spelled? s.toList = some s := by
  rw [spelled?, codes_of_plain h, charsOfCodes?_map_toNat, Option.map_some, String.ofList_toList]

theorem spelledWord?_toDigits (n : UInt64) : spelledWord? (Nat.toDigits 10 n.toNat) = some n := by
  unfold spelledWord?
  rw [if_pos, unsigned?_toDigits (by decide) (by decide) n.toNat_lt]
  · simp
  · exact ⟨List.all_eq_true.mpr isDigit_of_mem_toDigits, length_toDigits_of_head?⟩

theorem isPlainChar_of_isDigit {c : Char} (h : c.isDigit) : IsPlainChar c := by
  refine ⟨?_, ?_, ?_⟩
  · rintro rfl
    exact absurd h (by decide)
  · rintro rfl
    exact absurd h (by decide)
  · intro hlt
    have hge : 48 ≤ c.toNat := by
      simp only [Char.isDigit, Bool.and_eq_true, decide_eq_true_eq] at h
      exact UInt32.le_iff_toNat_le.mp h.1
    have hlt' : c.toNat < 32 := hlt
    omega

end Json

/-! ### Numbers -/

namespace JsonNumber

theorem roundToDouble_le {n : Nat} (hn : 0 < n) : roundToDouble n ≤ 2 * n := by
  have hunit : Nat.pow 2 (n.log2 - 52) ≤ n :=
    Nat.le_trans (Nat.pow_le_pow_right (by decide) (Nat.sub_le _ _)) (Nat.log2_self_le (by omega))
  have hround := two_mul_nearestEven_le n (Nat.pow 2 (n.log2 - 52))
  unfold roundToDouble
  simp only
  omega

/-- Words are far below the largest double. -/
theorem isFinite_integer (negative : Bool) {n : Nat} (h : n < UInt64.size) :
    (integer negative n).isFinite := by
  have hone : roundToDouble 1 = 1 := roundToDouble_of_lt (by decide)
  have hlarge : 2 * UInt64.size < Nat.pow 2 1024 - Nat.pow 2 970 := by decide +kernel
  have hleading : leadingWord n = (n, 0) := by rw [leadingWord, if_pos h]
  rw [isFinite, fitsDouble, hleading]
  change (if n = 0 then true else if 308 < 0 then false
    else decide (roundToDouble n * roundToDouble 1 < Nat.pow 2 1024 - Nat.pow 2 970)) = true
  by_cases hn : n = 0
  · rw [if_pos hn]
  · rw [if_neg hn, if_neg (by decide), hone, Nat.mul_one, decide_eq_true_eq]
    exact Nat.lt_of_le_of_lt (roundToDouble_le (Nat.pos_of_ne_zero hn))
      (Nat.lt_trans (Nat.mul_lt_mul_of_pos_left h (by decide)) hlarge)

end JsonNumber

end Ensemble
