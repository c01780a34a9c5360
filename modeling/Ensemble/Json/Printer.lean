import Ensemble.Json.Basic

/-!
# Printing JSON

Every item and field stands on a line of its own, two blanks deeper than what it belongs to. Empty
arrays and objects stay on their line.
-/

namespace Ensemble

def JsonNumber.text : JsonNumber → String
  | .integer negative n => (if negative then "-" else "") ++ Text.decimal n
  | .decimal negative mantissa scale =>
    (if negative then "-" else "") ++ Text.decimal mantissa ++ "e" ++
      match scale with
      | .ofNat k => Text.decimal k
      | .negSucc k => "-" ++ Text.decimal (k + 1)

namespace Json

/-- A line break and the blanks at a depth. -/
def newline (depth : Nat) : String := "\n" ++ String.ofList (List.replicate (2 * depth) ' ')

def quoted (spelling : List Char) : String := "\"" ++ String.ofList spelling ++ "\""

mutual

/-- The text of a value at a depth. -/
def prettyAt (depth : Nat) : Json → String
  | .null => "null"
  | .bool b => if b then "true" else "false"
  | .number n => n.text
  | .string spelling => quoted spelling
  | .array [] => "[]"
  | .array (j :: js) =>
    "[" ++ newline (depth + 1) ++ prettyAt (depth + 1) j ++ prettyItems (depth + 1) js ++
      newline depth ++ "]"
  | .object [] => "\x7b\x7d"
  | .object ((k, j) :: fs) =>
    "\x7b" ++ newline (depth + 1) ++ quoted k ++ ": " ++ prettyAt (depth + 1) j ++
      prettyFields (depth + 1) fs ++ newline depth ++ "\x7d"

/-- Further items of an array. -/
def prettyItems (depth : Nat) : List Json → String
  | [] => ""
  | j :: js => "," ++ newline depth ++ prettyAt depth j ++ prettyItems depth js

/-- Further fields of an object. -/
def prettyFields (depth : Nat) : List (List Char × Json) → String
  | [] => ""
  | (k, j) :: fs =>
    "," ++ newline depth ++ quoted k ++ ": " ++ prettyAt depth j ++ prettyFields depth fs

end

def pretty (j : Json) : String := prettyAt 0 j

end Json

end Ensemble
