import Ensemble.Json.Number
import Ensemble.Text.Numeral

/-!
# JSON values

JSON as it is written: fields stay in order and may repeat, a string keeps its spelling, and a
number keeps whether it was written as an integer. What a spelling or a number stands for is read
off when it is asked for.
-/

namespace Ensemble

inductive Json
  | null
  | bool (b : Bool)
  | number (n : JsonNumber)
  /-- A string by what stands between its quotes. -/
  | string (spelling : List Char)
  | array (items : List Json)
  /-- Fields by the spelling of their keys. -/
  | object (fields : List (List Char × Json))

/-! ## Spellings -/

namespace Json

/-- What an escaped character stands for. -/
def escapedChar (c : Char) : Char :=
  if c = 'b' then '\x08'
  else if c = 'f' then '\x0c'
  else if c = 'n' then '\n'
  else if c = 'r' then '\r'
  else if c = 't' then '\t'
  else c

/-- The codes that a spelling lists: those of its characters, and those written in hexadecimal. -/
def codes : List Char → List Nat
  | [] => []
  | '\\' :: 'u' :: a :: b :: c :: d :: cs =>
    (Text.digitsValue? 16 0 [a, b, c, d]).getD 0 :: codes cs
  | '\\' :: c :: cs => (escapedChar c).toNat :: codes cs
  | c :: cs => c.toNat :: codes cs

def isHighSurrogate (n : Nat) : Bool := 0xD800 ≤ n ∧ n ≤ 0xDBFF

def isLowSurrogate (n : Nat) : Bool := 0xDC00 ≤ n ∧ n ≤ 0xDFFF

/-- The characters of codes, where surrogates stand in pairs. -/
def charsOfCodes? : List Nat → Option (List Char)
  | [] => some []
  | h :: l :: ns =>
    if isHighSurrogate h then
      if isLowSurrogate l then
        (charsOfCodes? ns).map (Char.ofNat (0x10000 + (h - 0xD800) * 0x400 + (l - 0xDC00)) :: ·)
      else none
    else if isLowSurrogate h then none
    else (charsOfCodes? (l :: ns)).map (Char.ofNat h :: ·)
  | [n] => if isHighSurrogate n || isLowSurrogate n then none else some [Char.ofNat n]

/-- The text of a spelling. There is none where a surrogate stands alone. -/
def spelled? (spelling : List Char) : Option String :=
  (charsOfCodes? (codes spelling)).map String.ofList

/-- The word that a spelling is the decimal numeral of, without a sign or leading zeros. -/
def spelledWord? (spelling : List Char) : Option UInt64 :=
  if spelling.all Char.isDigit ∧ (spelling.head? = some '0' → spelling.length = 1) then
    (Text.unsigned? 10 UInt64.size spelling).map UInt64.ofNat
  else none

/-! ## Values -/

def uint64? : Json → Option UInt64
  | .number n => n.uint64?
  | _ => none

def text? : Json → Option String
  | .string spelling => spelled? spelling
  | _ => none

mutual

/-- How deep arrays and objects stand in each other. -/
def depth : Json → Nat
  | .array items => depthOfItems items + 1
  | .object fields => depthOfFields fields + 1
  | _ => 0

def depthOfItems : List Json → Nat
  | [] => 0
  | j :: js => max j.depth (depthOfItems js)

def depthOfFields : List (List Char × Json) → Nat
  | [] => 0
  | (_, j) :: fs => max j.depth (depthOfFields fs)

end

mutual

/-- Whether every string has a text and every number is one. -/
def isMeaningful : Json → Bool
  | .number n => n.isFinite
  | .string spelling => (spelled? spelling).isSome
  | .array items => itemsMeaningful items
  | .object fields => fieldsMeaningful fields
  | _ => true

def itemsMeaningful : List Json → Bool
  | [] => true
  | j :: js => j.isMeaningful && itemsMeaningful js

def fieldsMeaningful : List (List Char × Json) → Bool
  | [] => true
  | (k, j) :: fs => (spelled? k).isSome && j.isMeaningful && fieldsMeaningful fs

end

end Json

end Ensemble
