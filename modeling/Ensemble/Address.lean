import Ensemble.Text.Lines
import Ensemble.Text.Numeral

/-!
# Internet addresses

Numeric addresses in their text forms: four decimal octets, or eight hexadecimal groups of which one
run may be left out as `::` and the last two may be written as four octets.
-/

namespace Ensemble

/-- A numeric address: four octets, or eight groups of 16 bits. -/
inductive Address
  | v4 (octets : List Nat)
  | v6 (groups : List Nat)
deriving DecidableEq, Repr

namespace Address

open Text

/-- One to three digits without a leading zero, at most 255. -/
def octet? (cs : List Char) : Option Nat :=
  if 3 < cs.length then none
  else if 1 < cs.length ∧ cs.head? = some '0' then none
  else (digits? 10 cs).filter (· ≤ 255)

def v4Octets? (cs : List Char) : Option (List Nat) :=
  let parts := fields '.' cs
  if parts.length = 4 then parts.mapM octet? else none

/-- One to four hexadecimal digits. -/
def group? (cs : List Char) : Option Nat :=
  if 4 < cs.length then none else digits? 16 cs

/-- Groups between colons. Only the last may be written as octets, which make two groups. -/
def groups? : List (List Char) → Option (List Nat)
  | [] => some []
  | [cs] => match v4Octets? cs with
    | some [a, b, c, d] => some [a * 256 + b, c * 256 + d]
    | _ => (group? cs).map ([·])
  | cs :: rest => do return (← group? cs) :: (← groups? rest)

/-- The groups of a text on one side of `::`, where no group at all is the empty text. -/
def sideGroups? (cs : List Char) : Option (List Nat) :=
  if cs = [] then some [] else groups? (fields ':' cs)

/-- Cuts a text at the first `::`. -/
def cutGap : List Char → Option (List Char × List Char)
  | [] => none
  | ':' :: ':' :: cs => some ([], cs)
  | c :: cs => (cutGap cs).map fun (before, after) => (c :: before, after)

/-- Eight groups; `::` stands for one or more groups of zeros, and only after it may octets
follow. -/
def v6Groups? (cs : List Char) : Option (List Nat) :=
  match cutGap cs with
  | none => (groups? (fields ':' cs)).filter (·.length = 8)
  | some (before, after) => do
    let front ← sideGroups? before
    let back ← sideGroups? after
    if before.contains '.' then none
    else if front.length + back.length ≤ 7 then
      return front ++ List.replicate (8 - front.length - back.length) 0 ++ back
    else none

def ofText? (text : String) : Option Address :=
  match v4Octets? text.toList with
  | some octets => some (.v4 octets)
  | none => (v6Groups? text.toList).map .v6

/-- Whether an address is the one of all zeros, which stands for every local address. -/
def isUnspecified : Address → Bool
  | .v4 octets => octets.all (· == 0)
  | .v6 groups => groups.all (· == 0)

end Address

/-- The two kinds of numeric address. -/
inductive AddressFamily
  | v4
  | v6
deriving DecidableEq, Repr

def Address.family : Address → AddressFamily
  | .v4 _ => .v4
  | .v6 _ => .v6

end Ensemble
