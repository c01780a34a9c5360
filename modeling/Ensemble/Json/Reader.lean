import Ensemble.Json.Basic

/-!
# Reading JSON

A text is cut into tokens by a machine over its characters, and the tokens are put together by a
machine with a stack of open arrays and objects. Both take one input at a time, so nothing bounds
how deep a text may nest.
-/

namespace Ensemble.Json

/-! ## Numbers -/

/-- The digits at the start of a text, and the rest. -/
def spanDigits (cs : List Char) : List Char × List Char := cs.span Char.isDigit

/-- The integer that digits write, without leading zeros. -/
def integerDigits? (ds : List Char) : Option Nat :=
  if ds.head? = some '0' ∧ 1 < ds.length then none else Text.digits? 10 ds

/-- The power of ten after an `e`; none stands for the zeroth. -/
def exponent? : List Char → Option Int
  | [] => some 0
  | c :: cs =>
    if c = 'e' ∨ c = 'E' then
      match cs with
      | '-' :: ds => (Text.digits? 10 ds).map fun n => -(n : Int)
      | '+' :: ds => (Text.digits? 10 ds).map fun n => (n : Int)
      | ds => (Text.digits? 10 ds).map fun n => (n : Int)
    else none

/-- Reads a number without its sign. -/
def unsignedNumber? (negative : Bool) (cs : List Char) : Option JsonNumber := do
  let (whole, rest) := spanDigits cs
  let n ← integerDigits? whole
  match rest with
  | [] => return .integer negative n
  | '.' :: rest =>
    let (fraction, rest) := spanDigits rest
    if fraction = [] then none
    else
      let e ← exponent? rest
      return .decimal negative (← Text.digits? 10 (whole ++ fraction)) (e - fraction.length)
  | rest => return .decimal negative n (← exponent? rest)

def number? : List Char → Option JsonNumber
  | '-' :: cs => unsignedNumber? true cs
  | cs => unsignedNumber? false cs

/-! ## Tokens -/

inductive Token
  | beginArray
  | endArray
  | beginObject
  | endObject
  | colon
  | comma
  /-- A null, a truth value or a number. -/
  | scalar (j : Json)
  | string (spelling : List Char)

/-- Where the machine stands in a token. -/
inductive Lex
  | between
  | word (cs : List Char)
  | number (cs : List Char)
  | text (cs : List Char)
  /-- After a backslash. -/
  | escape (cs : List Char)
  /-- With `owed` more hexadecimal digits to come. -/
  | hex (owed : Nat) (cs : List Char)

def word? (cs : List Char) : Option Token :=
  if cs = "null".toList then some (.scalar .null)
  else if cs = "true".toList then some (.scalar (.bool true))
  else if cs = "false".toList then some (.scalar (.bool false))
  else none

def isNumberChar (c : Char) : Bool :=
  c.isDigit || c == '-' || c == '+' || c == '.' || c == 'e' || c == 'E'

/-- What a character between tokens is or begins. -/
def begin? (c : Char) : Option (List Token × Lex) :=
  if c = ' ' ∨ c = '\n' ∨ c = '\t' ∨ c = '\r' then some ([], .between)
  else if c = '[' then some ([.beginArray], .between)
  else if c = ']' then some ([.endArray], .between)
  else if c = '\x7b' then some ([.beginObject], .between)
  else if c = '\x7d' then some ([.endObject], .between)
  else if c = ':' then some ([.colon], .between)
  else if c = ',' then some ([.comma], .between)
  else if c = '"' then some ([], .text [])
  else if c = '-' ∨ c.isDigit then some ([], .number [c])
  else if c.isLower then some ([], .word [c])
  else none

/-- The tokens of a text from inside one. -/
def lex : Lex → List Char → Option (List Token)
  | .between, [] => some []
  | .word cs, [] => (word? cs).map ([·])
  | .number cs, [] => (number? cs).map fun n => [.scalar (.number n)]
  | .text _, [] => none
  | .escape _, [] => none
  | .hex _ _, [] => none
  | .between, c :: rest => do
    let (ts, s) ← begin? c
    return ts ++ (← lex s rest)
  | .word cs, c :: rest =>
    if c.isLower then lex (.word (cs ++ [c])) rest
    else do
      let t ← word? cs
      let (ts, s) ← begin? c
      return t :: ts ++ (← lex s rest)
  | .number cs, c :: rest =>
    if isNumberChar c then lex (.number (cs ++ [c])) rest
    else do
      let n ← number? cs
      let (ts, s) ← begin? c
      return .scalar (.number n) :: ts ++ (← lex s rest)
  | .text cs, c :: rest =>
    if c = '"' then (lex .between rest).map (.string cs :: ·)
    else if c = '\\' then lex (.escape (cs ++ [c])) rest
    else if c < ' ' then none
    else lex (.text (cs ++ [c])) rest
  | .escape cs, c :: rest =>
    if c = 'u' then lex (.hex 4 (cs ++ [c])) rest
    else if ['"', '\\', '/', 'b', 'f', 'n', 'r', 't'].contains c then
      lex (.text (cs ++ [c])) rest
    else none
  | .hex owed cs, c :: rest =>
    if (Text.hexDigitValue? c).isNone then none
    else if owed ≤ 1 then lex (.text (cs ++ [c])) rest
    else lex (.hex (owed - 1) (cs ++ [c])) rest

/-! ## Values -/

/-- An array or an object around a value that is awaited. -/
inductive Frame
  | array (items : List Json)
  | object (fields : List (List Char × Json)) (key : List Char)

/-- What is awaited, with what stands open around it. -/
inductive Await
  | value (opened : List Frame)
  | itemOrEnd (opened : List Frame)
  | keyOrEnd (opened : List Frame)
  | key (fields : List (List Char × Json)) (opened : List Frame)
  | colon (fields : List (List Char × Json)) (key : List Char) (opened : List Frame)
  | afterItem (items : List Json) (opened : List Frame)
  | afterField (fields : List (List Char × Json)) (opened : List Frame)
  /-- Nothing: the value is complete. -/
  | nothing (j : Json)

/-- Puts a value where one is awaited. -/
def place (j : Json) : List Frame → Await
  | [] => .nothing j
  | .array items :: fs => .afterItem (items ++ [j]) fs
  | .object fields key :: fs => .afterField (fields ++ [(key, j)]) fs

/-- Begins a value. -/
def beginValue (fs : List Frame) : Token → Option Await
  | .beginArray => some (.itemOrEnd fs)
  | .beginObject => some (.keyOrEnd fs)
  | .scalar j => some (place j fs)
  | .string spelling => some (place (.string spelling) fs)
  | _ => none

def step : Await → Token → Option Await
  | .value fs, t => beginValue fs t
  | .itemOrEnd fs, .endArray => some (place (.array []) fs)
  | .itemOrEnd fs, t => beginValue (.array [] :: fs) t
  | .keyOrEnd fs, .endObject => some (place (.object []) fs)
  | .keyOrEnd fs, .string key => some (.colon [] key fs)
  | .key fields fs, .string key => some (.colon fields key fs)
  | .colon fields key fs, .colon => some (.value (.object fields key :: fs))
  | .afterItem items fs, .comma => some (.value (.array items :: fs))
  | .afterItem items fs, .endArray => some (place (.array items) fs)
  | .afterField fields fs, .comma => some (.key fields fs)
  | .afterField fields fs, .endObject => some (place (.object fields) fs)
  | _, _ => none

/-- Reads a text that holds one value. -/
def ofText? (text : String) : Option Json := do
  let ts ← lex .between text.toList
  match ← ts.foldlM step (.value []) with
  | .nothing j => some j
  | _ => none

end Ensemble.Json
