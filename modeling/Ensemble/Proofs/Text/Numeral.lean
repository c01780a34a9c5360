import Ensemble.Proofs.Text.Blank
import Ensemble.Text.Numeral
import Mathlib.Algebra.Group.Nat.Defs

/-!
# Numerals read back

Words are written in decimal or hexadecimal digits and read from numerals. What is written reads
back (`uint64?_decimal`, `hex64?_hex`), and no numeral of a number is shorter than the one that is
written (`length_decimal_le`). The characters that are written are letters and digits
(`isAlphanum_of_mem_decimal`), which are no blanks (`isBlank_of_isAlphanum`).
-/

namespace Ensemble.Text

/-! ### Digits -/

theorem hexDigitValue?_digitChar : ∀ d < 16, hexDigitValue? d.digitChar = some d := by decide

theorem digitValue?_digitChar {base d : Nat} (hb : base ≤ 16) (hd : d < base) :
    digitValue? base d.digitChar = some d := by
  rw [digitValue?, hexDigitValue?_digitChar d (by omega)]
  simpa using hd

/-- The digits of a number, by its quotient and its last digit. -/
theorem toDigits_induction {base : Nat} (hb : 1 < base) {P : Nat → List Char → Prop}
    (digit : ∀ n < base, P n [n.digitChar])
    (more : ∀ n cs, base ≤ n → P (n / base) cs → P n (cs ++ [(n % base).digitChar])) (n : Nat) :
    P n (Nat.toDigits base n) := by
  induction n using Nat.strongRecOn with
  | ind n ih =>
    by_cases hn : n < base
    · rw [Nat.toDigits_of_lt_base hn]
      exact digit n hn
    · rw [Nat.toDigits_of_base_le hb (by omega)]
      exact more n _ (by omega) (ih _ (Nat.div_lt_self (by omega) hb))

theorem digitsValue?_toDigits {base : Nat} (h1 : 1 < base) (h16 : base ≤ 16) (n : Nat) :
    digitsValue? base 0 (Nat.toDigits base n) = some n := by
  refine toDigits_induction h1 (P := fun n cs => digitsValue? base 0 cs = some n) ?_ ?_ n
  · intro n hn
    simp [digitsValue?, digitValue?_digitChar h16 hn]
  · intro n cs _ hcs
    have hd : n % base < base := Nat.mod_lt _ (by omega)
    rw [digitsValue?_append, hcs]
    simp [digitsValue?, digitValue?_digitChar h16 hd, Nat.div_add_mod']

/-- Digits reach no further than the power of the base that they have places for. -/
theorem lt_of_digitsValue? {base : Nat} {cs : List Char} {m n : Nat}
    (h : digitsValue? base m cs = some n) : n < (m + 1) * base ^ cs.length := by
  induction cs generalizing m with
  | nil =>
    simp only [digitsValue?, Option.some.injEq] at h
    simp [h]
  | cons c cs ih =>
    simp only [digitsValue?, Option.bind_eq_bind, Option.bind_eq_some_iff] at h
    obtain ⟨d, hd, hcs⟩ := h
    have hlt : d < base := by
      simp only [digitValue?, Option.filter_eq_some_iff, decide_eq_true_eq] at hd
      exact hd.2
    calc n < (m * base + d + 1) * base ^ cs.length := ih hcs
      _ ≤ ((m + 1) * base) * base ^ cs.length := Nat.mul_le_mul_right _ (by rw [Nat.succ_mul]; omega)
      _ = (m + 1) * base ^ (c :: cs).length := by
        rw [List.length_cons, Nat.pow_succ, Nat.mul_assoc, Nat.mul_comm base]

/-! ### Letters and digits -/

/-- Where the numbers of letters and digits are. -/
theorem cases_of_isAlphanum {c : Char} (h : c.isAlphanum) : (48 ≤ c.toNat ∧ c.toNat ≤ 57) ∨
    (65 ≤ c.toNat ∧ c.toNat ≤ 90) ∨ (97 ≤ c.toNat ∧ c.toNat ≤ 122) := by
  change (decide (65 ≤ c.val ∧ c.val ≤ 90) || 97 ≤ c.val && c.val ≤ 122 ||
    48 ≤ c.val && c.val ≤ 57) at h
  simp only [Bool.or_eq_true, Bool.and_eq_true, decide_eq_true_eq, UInt32.le_iff_toNat_le] at h
  change ((65 ≤ c.toNat ∧ c.toNat ≤ 90) ∨ (97 ≤ c.toNat ∧ c.toNat ≤ 122)) ∨
    (48 ≤ c.toNat ∧ c.toNat ≤ 57) at h
  omega

theorem isBlank_of_isAlphanum {c : Char} (h : c.isAlphanum) : isBlank c = false := by
  have hc := cases_of_isAlphanum h
  simp [isBlank]
  omega

theorem lt_of_isAlphanum {c : Char} (h : c.isAlphanum) : c.toNat < 128 := by
  have hc := cases_of_isAlphanum h
  omega

theorem isAlphanum_digitChar : ∀ d < 16, d.digitChar.isAlphanum := by decide

theorem isAlphanum_of_mem_toDigits {base n : Nat} (h1 : 1 < base) (h16 : base ≤ 16) {c : Char}
    (h : c ∈ Nat.toDigits base n) : c.isAlphanum := by
  suffices hall : ∀ c ∈ Nat.toDigits base n, c.isAlphanum from hall c h
  refine toDigits_induction h1 (P := fun _ cs => ∀ c ∈ cs, c.isAlphanum) ?_ ?_ n
  · intro n hn c hc
    rw [List.mem_singleton.mp hc]
    exact isAlphanum_digitChar n (by omega)
  · intro n cs _ hcs c hc
    rcases List.mem_append.mp hc with hc | hc
    · exact hcs c hc
    · have hd : n % base < base := Nat.mod_lt _ (by omega)
      rw [List.mem_singleton.mp hc]
      exact isAlphanum_digitChar _ (by omega)

theorem isAlphanum_of_mem_decimal {n : Nat} {c : Char} (h : c ∈ (decimal n).toList) :
    c.isAlphanum := by
  rw [decimal, String.toList_ofList] at h
  exact isAlphanum_of_mem_toDigits (by decide) (by decide) h

theorem isAlphanum_of_mem_hex {n : Nat} {c : Char} (h : c ∈ (hex n).toList) : c.isAlphanum := by
  rw [hex, String.toList_ofList] at h
  exact isAlphanum_of_mem_toDigits (by decide) (by decide) h

theorem trim_hex (n : Nat) : trim (hex n).toList = (hex n).toList :=
  trim_eq_self ⟨fun _ hc => isBlank_of_isAlphanum (isAlphanum_of_mem_hex (List.mem_of_head? hc)),
    fun _ hc => isBlank_of_isAlphanum (isAlphanum_of_mem_hex (List.mem_of_getLast? hc))⟩

/-! ### Words -/

theorem digits?_toDigits {base : Nat} (h1 : 1 < base) (h16 : base ≤ 16) (n : Nat) :
    digits? base (Nat.toDigits base n) = some n := by
  have hread := digitsValue?_toDigits h1 h16 n
  cases hds : Nat.toDigits base n with
  | nil => exact absurd hds Nat.toDigits_ne_nil
  | cons c cs => rwa [hds] at hread

theorem natural?_toDigits {base : Nat} (h1 : 1 < base) (h16 : base ≤ 16) (n : Nat) :
    natural? base (Nat.toDigits base n) = some n := by
  unfold natural?
  split
  · rename_i cs hds
    have hplus := @isAlphanum_of_mem_toDigits base n h1 h16 '+' (by simp [hds])
    exact absurd hplus (by decide)
  · exact digits?_toDigits h1 h16 n

theorem unsigned?_toDigits {base size n : Nat} (h1 : 1 < base) (h16 : base ≤ 16) (hn : n < size) :
    unsigned? base size (Nat.toDigits base n) = some n := by
  rw [unsigned?, natural?_toDigits h1 h16]
  simpa using hn

theorem uint16?_decimal (n : UInt16) : uint16? (decimal n.toNat) = some n := by
  rw [uint16?, decimal, String.toList_ofList, unsigned?_toDigits (by decide) (by decide) n.toNat_lt]
  simp

theorem uint64?_decimal (n : UInt64) : uint64? (decimal n.toNat) = some n := by
  rw [uint64?, decimal, String.toList_ofList, unsigned?_toDigits (by decide) (by decide) n.toNat_lt]
  simp

theorem hex64?_hex (n : UInt64) : hex64? (hex n.toNat) = some n := by
  rw [hex64?, hex, String.toList_ofList, unsigned?_toDigits (by decide) (by decide) n.toNat_lt]
  simp

/-! ### Characters of numerals -/

theorem isDigit_of_digitValue? {c : Char} {d : Nat} (h : digitValue? 10 c = some d) :
    c.isDigit := by
  simp only [digitValue?, Option.filter_eq_some_iff, decide_eq_true_eq] at h
  obtain ⟨hvalue, hlt⟩ := h
  unfold hexDigitValue? at hvalue
  split at hvalue
  · rename_i hc
    simp only [Char.isDigit, Bool.and_eq_true, decide_eq_true_eq]
    exact hc
  · split at hvalue
    · have hd := Option.some.inj hvalue
      omega
    · split at hvalue
      · have hd := Option.some.inj hvalue
        omega
      · cases hvalue

theorem isDigit_of_digitsValue? {cs : List Char} {m n : Nat} (h : digitsValue? 10 m cs = some n) :
    ∀ c ∈ cs, c.isDigit := by
  induction cs generalizing m with
  | nil => simp
  | cons c cs ih =>
    obtain ⟨d, hd, hrest⟩ := Option.bind_eq_some_iff.mp h
    intro e he
    rcases List.mem_cons.mp he with rfl | he
    · exact isDigit_of_digitValue? hd
    · exact ih hrest e he

theorem isDigit_of_mem_toDigits {n : Nat} : ∀ c ∈ Nat.toDigits 10 n, c.isDigit :=
  isDigit_of_digitsValue? (digitsValue?_toDigits (by decide) (by decide) n)

theorem chars_of_uint64? {text : String} {n : UInt64} (h : uint64? text = some n) :
    text.toList ≠ [] ∧ ∀ c ∈ text.toList, c = '+' ∨ c.isDigit := by
  have hdigits : ∀ {cs : List Char} {k : Nat}, digits? 10 cs = some k →
      cs ≠ [] ∧ ∀ c ∈ cs, c.isDigit := by
    intro cs k hcs
    cases cs with
    | nil => cases hcs
    | cons c cs => exact ⟨by simp, isDigit_of_digitsValue? hcs⟩
  obtain ⟨k, hk, -⟩ := Option.map_eq_some_iff.mp h
  obtain ⟨hnatural, -⟩ := Option.filter_eq_some_iff.mp hk
  unfold natural? at hnatural
  split at hnatural
  · rename_i cs htext
    obtain ⟨-, hcs⟩ := hdigits hnatural
    rw [htext]
    refine ⟨by simp, fun c hc => ?_⟩
    rcases List.mem_cons.mp hc with rfl | hc
    · exact Or.inl rfl
    · exact Or.inr (hcs c hc)
  · obtain ⟨hne, hcs⟩ := hdigits hnatural
    exact ⟨hne, fun c hc => Or.inr (hcs c hc)⟩

/-! ### Leading zeros -/

theorem head?_toDigits_ne_zero {n : Nat} (hn : 0 < n) : (Nat.toDigits 10 n).head? ≠ some '0' := by
  have hdigit : ∀ n < 10, 0 < n → n.digitChar ≠ '0' := by decide
  suffices h : Nat.toDigits 10 n ≠ [] ∧ (0 < n → (Nat.toDigits 10 n).head? ≠ some '0') from h.2 hn
  refine toDigits_induction (by decide)
    (P := fun n cs => cs ≠ [] ∧ (0 < n → cs.head? ≠ some '0')) ?_ ?_ n
  · intro n hlt
    exact ⟨by simp, fun hpos => by simpa using hdigit n hlt hpos⟩
  · intro n cs hge ⟨hne, hcs⟩
    refine ⟨by simp, fun _ => ?_⟩
    obtain ⟨c, cs, rfl⟩ := List.exists_cons_of_ne_nil hne
    exact hcs (by omega)

/-- Only zero is written with a zero at the start. -/
theorem length_toDigits_of_head? {n : Nat} (h : (Nat.toDigits 10 n).head? = some '0') :
    (Nat.toDigits 10 n).length = 1 := by
  rcases Nat.eq_zero_or_pos n with rfl | hn
  · rfl
  · exact absurd h (head?_toDigits_ne_zero hn)

/-! ### Shortest numerals -/

theorem length_toDigits_le_of_digits? {base n : Nat} {cs : List Char} (h1 : 1 < base)
    (h : digits? base cs = some n) : (Nat.toDigits base n).length ≤ cs.length := by
  cases cs with
  | nil => cases h
  | cons c cs =>
    rw [Nat.length_toDigits_le_iff h1 (by simp)]
    simpa using lt_of_digitsValue? h

theorem length_toDigits_le_of_natural? {base n : Nat} {cs : List Char} (h1 : 1 < base)
    (h : natural? base cs = some n) : (Nat.toDigits base n).length ≤ cs.length := by
  unfold natural? at h
  split at h
  · have hle := length_toDigits_le_of_digits? h1 h
    rw [List.length_cons]
    omega
  · exact length_toDigits_le_of_digits? h1 h

theorem length_decimal_le {n : UInt16} {text : String} (h : uint16? text = some n) :
    (decimal n.toNat).toList.length ≤ text.toList.length := by
  simp only [uint16?, unsigned?, Option.map_eq_some_iff, Option.filter_eq_some_iff,
    decide_eq_true_eq] at h
  obtain ⟨k, ⟨hk, hlt⟩, rfl⟩ := h
  rw [UInt16.toNat_ofNat_of_lt' hlt, decimal, String.toList_ofList]
  exact length_toDigits_le_of_natural? (by decide) hk

end Ensemble.Text
