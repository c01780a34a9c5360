/-!
# JSON numbers

A number as it is written, and whether it is one. A text may write more digits than a double holds
and powers of ten beyond it, so a number is taken for its leading digits times a power of ten, both
rounded to doubles, and it is one if their product is. Main statements: `two_mul_nearestEven_le`
(rounding adds half a unit at most) and `roundToDouble_of_lt`.
-/

namespace Ensemble

/-- A number as written: an integer, or digits with a power of ten. -/
inductive JsonNumber
  | integer (negative : Bool) (n : Nat)
  | decimal (negative : Bool) (mantissa : Nat) (scale : Int)
deriving DecidableEq, Repr

namespace JsonNumber

/-- The 64-bit word that is written. -/
def uint64? : JsonNumber → Option UInt64
  | .integer false n => if n < UInt64.size then some (UInt64.ofNat n) else none
  | _ => none

/-! ## Rounding -/

/-- The whole number nearest to `n / d`; of two, the even one. -/
def nearestEven (n d : Nat) : Nat :=
  if d < 2 * (n % d) ∨ (2 * (n % d) = d ∧ n / d % 2 = 1) then n / d + 1 else n / d

theorem two_mul_nearestEven_le (n d : Nat) : 2 * (nearestEven n d * d) ≤ 2 * n + d := by
  have h := Nat.div_add_mod' n d
  unfold nearestEven
  split
  · rw [Nat.add_mul]; omega
  · omega

/-- The nearest number with 53 significant bits; of two, the one with an even last bit. -/
def roundToDouble (n : Nat) : Nat :=
  let unit := Nat.pow 2 (n.log2 - 52)
  nearestEven n unit * unit

theorem roundToDouble_of_lt {n : Nat} (h : n < Nat.pow 2 53) : roundToDouble n = n := by
  have hlog : n.log2 - 52 = 0 := by
    by_cases hn : n = 0
    · subst hn; rfl
    · have := (Nat.log2_lt hn).2 h; omega
  simp [roundToDouble, hlog, nearestEven, Nat.mod_one]

/-! ## Range -/

/-- The leading digits of a numeral that fit in a 64-bit word, and how many follow them. -/
def leadingWord (n : Nat) : Nat × Nat :=
  if n < UInt64.size then (n, 0)
  else
    let (m, dropped) := leadingWord (n / 10)
    (m, dropped + 1)
termination_by n
decreasing_by simp only [UInt64.size] at *; omega

/-- Whether `mantissa * 10 ^ scale` is a double. Only the leading digits that fit in a word count.
They and the power of ten are rounded before they are multiplied, and the product has to lie below
the middle between the largest double and the power of two after it. -/
def fitsDouble (mantissa : Nat) (scale : Int) : Bool :=
  let (m, dropped) := leadingWord mantissa
  match scale + dropped with
  | .negSucc _ => true
  | .ofNat k =>
    if m = 0 then true
    else if 308 < k then false
    else roundToDouble m * roundToDouble (Nat.pow 10 k) < Nat.pow 2 1024 - Nat.pow 2 970

def isFinite : JsonNumber → Bool
  | .integer _ n => fitsDouble n 0
  | .decimal _ mantissa scale => fitsDouble mantissa scale

end JsonNumber

end Ensemble
