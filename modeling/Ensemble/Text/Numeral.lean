/-!
# Numerals

Unsigned numerals in a base up to 16: an optional plus sign and one or more digits, in either case.
Values beyond the width asked for are refused. Main statement: `digitsValue?_append`.
-/

namespace Ensemble.Text

/-- The value of a digit below 16. -/
def hexDigitValue? (c : Char) : Option Nat :=
  if '0' ≤ c ∧ c ≤ '9' then some (c.toNat - '0'.toNat)
  else if 'a' ≤ c ∧ c ≤ 'f' then some (c.toNat - 'a'.toNat + 10)
  else if 'A' ≤ c ∧ c ≤ 'F' then some (c.toNat - 'A'.toNat + 10)
  else none

def digitValue? (base : Nat) (c : Char) : Option Nat :=
  (hexDigitValue? c).filter (· < base)

/-- The number that digits continue, when they follow those of `n`. -/
def digitsValue? (base : Nat) (n : Nat) : List Char → Option Nat
  | [] => some n
  | c :: cs => do
    let d ← digitValue? base c
    digitsValue? base (n * base + d) cs

theorem digitsValue?_append (base n : Nat) (cs ds : List Char) :
    digitsValue? base n (cs ++ ds) =
      (digitsValue? base n cs).bind fun m => digitsValue? base m ds := by
  induction cs generalizing n with
  | nil => rfl
  | cons c cs ih => cases h : digitValue? base c <;> simp [digitsValue?, h, ih]

/-- One or more digits. -/
def digits? (base : Nat) : List Char → Option Nat
  | [] => none
  | c :: cs => digitsValue? base 0 (c :: cs)

/-- An optional plus sign and digits. -/
def natural? (base : Nat) : List Char → Option Nat
  | '+' :: cs => digits? base cs
  | cs => digits? base cs

/-- A numeral below `size`. -/
def unsigned? (base size : Nat) (cs : List Char) : Option Nat :=
  (natural? base cs).filter (· < size)

def uint16? (text : String) : Option UInt16 :=
  (unsigned? 10 UInt16.size text.toList).map UInt16.ofNat

def uint32? (text : String) : Option UInt32 :=
  (unsigned? 10 UInt32.size text.toList).map UInt32.ofNat

def uint64? (text : String) : Option UInt64 :=
  (unsigned? 10 UInt64.size text.toList).map UInt64.ofNat

/-- A hexadecimal numeral of up to 64 bits. -/
def hex64? (text : String) : Option UInt64 :=
  (unsigned? 16 UInt64.size text.toList).map UInt64.ofNat

/-- Decimal digits without leading zeros. -/
def decimal (n : Nat) : String := String.ofList (Nat.toDigits 10 n)

/-- Lower-case hexadecimal digits without leading zeros. -/
def hex (n : Nat) : String := String.ofList (Nat.toDigits 16 n)

end Ensemble.Text
