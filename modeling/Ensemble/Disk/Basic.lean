import Ensemble.Disk.FileError
import Ensemble.Path
import Ensemble.Table

/-!
# Disks

A disk is a tree of directories and files, kept as a table from locations to nodes, and a working
directory. This module finds what a path leads to. There are no symbolic or hard links: every path
leads to one location, and no two locations share a file.
-/

namespace Ensemble

/-- A place in the tree: the names from the top, of bytes as in a path. -/
abbrev Location := List String

/-- Tells files apart, also after they moved. -/
abbrev FileId := Nat

inductive Node
  | directory
  | file (id : FileId) (content : ByteArray)

structure Disk where
  /-- All nodes but the top directory. -/
  nodes : Table Location Node
  /-- The working directory. -/
  here : Location
  /-- Larger than the identity of any file made so far. -/
  nextId : FileId

namespace Disk

/-- The last step of a path: a name, the directory it starts from, or the one above. -/
inductive Last
  | name (name : String)
  | itself
  | up

/-- Where a path leads: its last step is taken from `directory`. -/
structure Spot where
  directory : Location
  last : Last
  /-- Whether separators follow the last step. -/
  slash : Bool

def node? (d : Disk) (l : Location) : Option Node :=
  if l = [] then some .directory else d.nodes.get? l

/-- What a directory holds under a name. Names beyond 255 bytes are refused. -/
def child (d : Disk) (l : Location) (name : String) : Except FileError (Option Node) :=
  if 255 < name.length then throw .invalidName else pure (d.node? (l ++ [name]))

/-- Takes one step to a directory. -/
def enter (d : Disk) (l : Location) (step : List Char) : Except FileError Location := do
  if step = ['.'] then return l
  else if step = ['.', '.'] then return l.dropLast
  else
    let name := String.ofList step
    match ← d.child l name with
    | some .directory => return l ++ [name]
    | some (.file ..) => throw .notADirectory
    | none => throw .notFound

/-- The steps of a path. -/
def steps (p : Path) : List (List Char) := (Text.fields '/' p.text.toList).filter (· ≠ [])

def hasNul (p : Path) : Bool := p.text.toList.contains (Char.ofNat 0)

/-- Follows a path up to its last step. -/
def walk (d : Disk) (p : Path) : Except FileError Spot := do
  if hasNul p then throw .nulInPath
  if p.text.isEmpty then throw .notFound
  let slash := p.text.toList.getLast? == some '/'
  match (steps p).getLast? with
  | none => return ⟨[], .itself, slash⟩
  | some last =>
    let start := if p.isRelative then d.here else []
    let l ← (steps p).dropLast.foldlM d.enter start
    if last = ['.'] then return ⟨l, .itself, slash⟩
    else if last = ['.', '.'] then return ⟨l, .up, slash⟩
    else return ⟨l, .name (String.ofList last), slash⟩

/-- What a spot is, and where. -/
def resolve (d : Disk) (s : Spot) : Except FileError (Location × Node) := do
  match s.last with
  | .itself => return (s.directory, .directory)
  | .up => return (s.directory.dropLast, .directory)
  | .name name => match ← d.child s.directory name with
    | none => throw .notFound
    | some .directory => return (s.directory ++ [name], .directory)
    | some (.file id content) =>
      if s.slash then throw .notADirectory
      else return (s.directory ++ [name], .file id content)

/-- The spot of a path below 4096 bytes. -/
def spot (d : Disk) (p : Path) : Except FileError Spot := do
  if hasNul p then throw .nulInPath
  if 4096 ≤ p.text.length then throw .invalidName
  d.walk p

/-- The location that a path leads to, and what is there. -/
def find (d : Disk) (p : Path) : Except FileError (Location × Node) := do d.resolve (← d.spot p)

/-! ## Questions -/

def isPresent (d : Disk) (p : Path) : Bool := (d.find p).isOk

def isFile (d : Disk) (p : Path) : Bool := d.find p matches .ok (_, .file ..)

def isDirectory (d : Disk) (p : Path) : Bool := d.find p matches .ok (_, .directory)

/-- The bytes of a file. -/
def read (d : Disk) (p : Path) : Except FileError ByteArray := do
  match ← d.find p with
  | (_, .directory) => throw .isADirectory
  | (_, .file _ content) => return content

/-- The path from the top to a location. -/
def pathOf (l : Location) : Path := ⟨"/" ++ "/".intercalate l⟩

/-- The path from the top that leads where `p` leads. Steps are taken one by one, so `p` may be of
any length. -/
def canonical (d : Disk) (p : Path) : Except FileError Path := do
  return pathOf (← d.resolve (← d.walk p)).1

/-- All nodes below a location, by their place under it. -/
def below (d : Disk) (l : Location) : List (Location × Node) :=
  d.nodes.toList.filterMap fun e =>
    if l.isPrefixOf e.1 ∧ e.1 ≠ l then some (e.1.drop l.length, e.2) else none

end Disk

end Ensemble
