import Ensemble.ConfigError
import Ensemble.Properties.Basic
import Ensemble.Properties.Escape
import Ensemble.Text.Blank
import Ensemble.Text.Lines

/-!
# Reading properties

A text is cut into lines; a line that ends in an odd number of backslashes goes on in the next one.
Each logical line that is neither blank nor a comment gives an entry: a key up to the first `=`, `:`
or blank that is not escaped, then the value. The last value given for a key stays.
-/

namespace Ensemble.Properties

open Text

/-! ## Logical lines -/

/-- The line without the backslash that joins the next line to it, if it ends in one. -/
def continued? (line : List Char) : Option (List Char) :=
  if (line.reverse.takeWhile (· == '\\')).length % 2 = 1 then some line.dropLast else none

/-- Whether a line stands for nothing: it is empty or starts with `#` or `!`. -/
def isIdle (line : List Char) : Bool :=
  match line with
  | [] => true
  | c :: _ => c == '#' || c == '!'

/-- Joins physical lines from number `n` on. `pending`, begun at line `start`, is what earlier lines
leave open; nothing is open where it is empty. -/
def joinLines (n start : Nat) (pending : List Char) : List (List Char) → List (Nat × List Char)
  | [] => if pending = [] then [] else [(start, pending)]
  | raw :: rest =>
    let line := trimStart raw
    if pending = [] then
      if isIdle line then joinLines (n + 1) n [] rest
      else match continued? line with
        | some head => joinLines (n + 1) n head rest
        | none => (n, line) :: joinLines (n + 1) n [] rest
    else match continued? line with
      | some head => joinLines (n + 1) start (pending ++ head) rest
      | none => (start, pending ++ line) :: joinLines (n + 1) n [] rest

/-- The logical lines of a text with the numbers of the lines they start at. -/
def logicalLines (text : List Char) : List (Nat × List Char) := joinLines 1 1 [] (lines text)

/-! ## Entries -/

/-- What follows the blank that ends a key: further blanks and one `=` or `:` belong to the
separator. -/
def afterBlank (cs : List Char) : List Char :=
  match trimStart cs with
  | c :: rest => if c = '=' ∨ c = ':' then rest else c :: rest
  | [] => []

/-- The key at the start of a logical line, and what follows the separator. -/
def splitKey : List Char → List Char × List Char
  | [] => ([], [])
  | '\\' :: c :: cs =>
    let (key, rest) := splitKey cs
    (escapedChar c :: key, rest)
  | ['\\'] => ([], [])
  | c :: cs =>
    if c = '=' ∨ c = ':' then ([], cs)
    else if isBlank c then ([], afterBlank cs)
    else
      let (key, rest) := splitKey cs
      (c :: key, rest)

/-- The key and the value of a logical line that starts at line `n`. -/
def entry (n : Nat) (line : List Char) : Except ConfigError (String × String) :=
  let line := trim line
  let (key, rest) := splitKey line
  if key = [] then throw (.malformed n (String.ofList line))
  else pure (String.ofList key, String.ofList (unescape (trim rest)))

/-- Reads a text. The first entry without a key is the error. -/
def ofText (text : String) : Except ConfigError Properties :=
  (logicalLines text.toList).foldlM (fun props line => do
    let (key, value) ← entry line.1 line.2
    return props.insert key value) .empty

end Ensemble.Properties
