import Ensemble.Text.Lines
import Ensemble.Text.Utf8

/-!
# Paths

A path is made of bytes, which may be those of no text in UTF-8. It is kept as written, and its
parts are read from that. Empty parts and parts `.` after the start are fillers: they are skipped
when the parts are read and stay in what is written. Nothing here looks at a disk.
-/

namespace Ensemble

/-- A path, as written: a character for each byte, with the number of the byte. Any other character is
taken as bytes of no text are. -/
structure Path where
  text : String
deriving DecidableEq, Repr

namespace Path

open Text

/-! ## Paths and texts -/

/-- The path that a text states. -/
def ofText (s : String) : Path := ⟨utf8 s⟩

/-- What is shown of a path: the text that states it, as far as there is one. -/
def display (p : Path) : String := ofUtf8Lossy p.text

/-- The text that states a path, if there is one. -/
def toText? (p : Path) : Option String :=
  if ofText p.display = p then some p.display else none

/-! ## Parts -/

/-- What a path starts from: the top of the tree, a written `.`, or nothing. -/
inductive Anchor
  | top
  | here
  | bare
deriving DecidableEq, Repr

def Anchor.chars : Anchor → List Char
  | .top => ['/']
  | .here => ['.']
  | .bare => []

/-- The start of a path and the text after it. -/
def cutAnchor : List Char → Anchor × List Char
  | '/' :: cs => (.top, cs)
  | ['.'] => (.here, [])
  | '.' :: '/' :: cs => (.here, '/' :: cs)
  | cs => (.bare, cs)

def isFiller (part : List Char) : Bool := part == [] || part == ['.']

/-- The parts without the fillers at their end. -/
def dropFillers (parts : List (List Char)) : List (List Char) :=
  (parts.reverse.dropWhile isFiller).reverse

def anchor (p : Path) : Anchor := (cutAnchor p.text.toList).1

/-- The parts after the anchor, up to the last that is no filler. -/
def parts (p : Path) : List (List Char) := dropFillers (fields '/' (cutAnchor p.text.toList).2)

/-- The text of an anchor and the parts after it. -/
def ofParts (a : Anchor) (ps : List (List Char)) : Path :=
  ⟨String.ofList (a.chars ++ ['/'].intercalate ps)⟩

/-- A step of a path. -/
inductive Component
  | top
  | here
  | up
  | name (name : List Char)
deriving DecidableEq, Repr

/-- The steps of a path, fillers skipped. -/
def components (p : Path) : List Component :=
  let start : List Component := match p.anchor with
    | .top => [.top]
    | .here => [.here]
    | .bare => []
  start ++ (p.parts.filter fun s => !isFiller s).map fun s =>
    if s = ['.', '.'] then .up else .name s

/-- Whether two paths take the same steps. -/
def sameSteps (p q : Path) : Bool := p.components == q.components

def isRelative (p : Path) : Bool := p.anchor != .top

/-- Whether a path starts with a written `.`. -/
def isExplicitlyLocal (p : Path) : Bool := p.anchor == .here

/-- The path without its last step, if it has one. -/
def parent? (p : Path) : Option Path :=
  match p.parts, p.anchor with
  | [], .here => some ⟨""⟩
  | [], _ => none
  | ps, a => some (ofParts a (dropFillers ps.dropLast))

/-- The last step, where it is a name. -/
def fileName? (p : Path) : Option (List Char) := p.parts.getLast?.filter (· ≠ ['.', '.'])

/-- The path of `p` seen from `base`: a path from the top stands for itself. -/
def join (base p : Path) : Path :=
  if !p.isRelative then p
  else if base.text.toList.getLast?.all (· == '/') then ⟨base.text ++ p.text⟩
  else ⟨base.text ++ "/" ++ p.text⟩

/-- The path with another name in place of the last one, or after it where there is none. -/
def withFileName (p : Path) (name : List Char) : Path :=
  let base := if p.fileName?.isSome then p.parent?.getD p else p
  base.join ⟨String.ofList name⟩

/-- The path with a suffix at its end, each character of which is a byte. -/
def append (p : Path) (suffix : String) : Path := ⟨p.text ++ suffix⟩

/-- The path, its parent, the parent of that, and so on. -/
def ancestors (p : Path) : List Path :=
  let rec go : Nat → Path → List Path
    | 0, _ => []
    | n + 1, p => p :: match p.parent? with
      | some q => go n q
      | none => []
  go (p.text.length + 1) p

/-! ## Extensions -/

/-- Cuts a text at its last separator. -/
def cutLast (sep : Char) : List Char → Option (List Char × List Char)
  | [] => none
  | c :: cs => match cutLast sep cs with
    | some (before, after) => some (c :: before, after)
    | none => if c = sep then some ([], cs) else none

/-- A name up to its last dot, and what follows. A dot at the start does not count. -/
def cutExtension (name : List Char) : List Char × Option (List Char) :=
  match cutLast '.' name with
  | some (c :: before, after) => (c :: before, some after)
  | _ => (name, none)

/-- The path up to the end of its name without extension. -/
def upToStem (p : Path) : Path :=
  match p.fileName? with
  | some name => ofParts p.anchor (p.parts.dropLast ++ [(cutExtension name).1])
  | none => p

/-- The path without its extension: as many characters as the extension has go from the end of the
text, and then whatever follows the stem of the last name. -/
def dropExtension (p : Path) : Path :=
  match p.fileName?.bind fun name => (cutExtension name).2 with
  | some ext => upToStem ⟨String.ofList (p.text.toList.take (p.text.length - ext.length))⟩
  | none => upToStem p

/-! ## Where a configuration lives -/

/-- `p` seen from `base` if it is relative, else `p` itself. -/
def resolveFrom (base p : Path) : Path := if p.isRelative then base.join p else p

/-- The directory that holds a file, `.` where the path names none. -/
def directory (p : Path) : Path :=
  match p.parent? with
  | some q => if q.text.isEmpty then ⟨"."⟩ else q
  | none => ⟨"."⟩

end Path

end Ensemble
