import Ensemble.Disk.Basic

/-!
# Changes to a disk

Making, writing, renaming and removing files and directories. An operation that is refused leaves
the disk as it was, except `makeDirectories`, which keeps the directories it has made.
-/

namespace Ensemble

/-- A file open for writing, and where it was when it was opened. -/
structure Handle where
  file : FileId
  location : Location
deriving DecidableEq, Repr

/-- `content` with `bytes` from `offset` on. Bytes between its end and `offset` are zero. -/
def overwrite (content : ByteArray) (offset : Nat) (bytes : ByteArray) : ByteArray :=
  content.extract 0 offset ++ ⟨Array.replicate (offset - content.size) 0⟩ ++ bytes ++
    content.extract (offset + bytes.size) content.size

namespace Disk

def set (d : Disk) (l : Location) (n : Node) : Disk := { d with nodes := d.nodes.insert l n }

def unset (d : Disk) (l : Location) : Disk := { d with nodes := d.nodes.erase l }

/-! ## Directories -/

def makeDirectory (d : Disk) (p : Path) : Except FileError Disk := do
  let s ← d.spot p
  match s.last with
  | .name name => match ← d.child s.directory name with
    | some _ => throw .alreadyExists
    | none => return d.set (s.directory ++ [name]) .directory
  | _ => throw .alreadyExists

/-- Makes the first of the given paths, after the others where it needs them. A directory that is
there already will do. -/
def makeFirst (d : Disk) : List Path → Except FileError Unit × Disk
  | [] => (.ok (), d)
  | p :: ps =>
    if p.text.isEmpty then (.ok (), d)
    else match d.makeDirectory p with
    | .ok d' => (.ok (), d')
    | .error .notFound => match makeFirst d ps with
      | (.error e, d') => (.error e, d')
      | (.ok (), d') => match d'.makeDirectory p with
        | .ok d'' => (.ok (), d'')
        | .error e => (if d'.isDirectory p then .ok () else .error e, d')
    | .error e => (if d.isDirectory p then .ok () else .error e, d)

/-- Makes a directory and those above it. -/
def makeDirectories (d : Disk) (p : Path) : Except FileError Unit × Disk :=
  d.makeFirst p.ancestors

/-! ## Files -/

/-- Opens an empty file for writing. A file that is there keeps its identity and loses its
content. -/
def create (d : Disk) (p : Path) : Except FileError (Handle × Disk) := do
  let s ← d.spot p
  match s.last with
  | .name name =>
    if s.slash then throw .isADirectory
    let l := s.directory ++ [name]
    match ← d.child s.directory name with
    | some .directory => throw .isADirectory
    | some (.file id _) => return (⟨id, l⟩, d.set l (.file id .empty))
    | none =>
      let d' := d.set l (.file d.nextId .empty)
      return (⟨d.nextId, l⟩, { d' with nextId := d.nextId + 1 })
  | _ => throw .isADirectory

/-- The content of the file that is open, and where that is now, if it is on the disk. -/
def locate (d : Disk) (h : Handle) : Option (Location × ByteArray) :=
  let open? : Location × Node → Option (Location × ByteArray)
    | (l, .file id content) => if id = h.file then some (l, content) else none
    | (_, .directory) => none
  match (d.nodes.get? h.location).bind fun n => open? (h.location, n) with
  | some found => some found
  | none => d.nodes.toList.findSome? open?

/-- Writes into an open file. A file that was removed takes the bytes along. -/
def writeAt (d : Disk) (h : Handle) (offset : Nat) (bytes : ByteArray) : Disk :=
  match d.locate h with
  | some (l, content) => d.set l (.file h.file (overwrite content offset bytes))
  | none => d

/-- Removes a file. -/
def remove (d : Disk) (p : Path) : Except FileError Disk := do
  let s ← d.spot p
  match s.last with
  | .name name => match ← d.child s.directory name with
    | none => throw .notFound
    | some .directory => throw .isADirectory
    | some (.file ..) =>
      if s.slash then throw .notADirectory else return d.unset (s.directory ++ [name])
  | _ => throw .isADirectory

/-- Moves what is at or below one location to another. -/
def move (d : Disk) (source target : Location) : Disk :=
  { d with nodes := Table.ofList (d.nodes.toList.filter (fun e => e.1 ≠ target) |>.map fun e =>
      if source.isPrefixOf e.1 then (target ++ e.1.drop source.length, e.2) else e) }

/-- Puts what is at `p` in place of what is at `q`: a file in place of a file, a directory in place
of an empty one. -/
def rename (d : Disk) (p q : Path) : Except FileError Disk := do
  let s ← d.spot p
  let t ← d.spot q
  match s.last, t.last with
  | .name a, .name b =>
    let source := s.directory ++ [a]
    let target := t.directory ++ [b]
    match ← d.child s.directory a, ← d.child t.directory b with
    | none, _ => throw .notFound
    | some (.file id content), there =>
      if s.slash || t.slash then throw .notADirectory
      else if source = target then return d
      else if there matches some .directory then throw .isADirectory
      else return (d.unset source).set target (.file id content)
    | some .directory, there =>
      if source = target then return d
      else if source.isPrefixOf target then throw .invalidInput
      else if there matches some (.file ..) then throw .notADirectory
      else if !(d.below target).isEmpty then throw .directoryNotEmpty
      else return d.move source target
  | _, _ => throw .resourceBusy

/-! ## Laying out -/

/-- Puts a file or an empty directory at a path, with the directories above it; a file that is there
gets the new content. Nothing happens where that is refused. -/
def put (d : Disk) (p : Path) (content : Option ByteArray) : Disk :=
  match content with
  | none => (d.makeDirectories p).2
  | some bytes =>
    let d := match p.parent? with
      | some parent => (d.makeDirectories parent).2
      | none => d
    match d.create p with
    | .ok (h, d) => d.writeAt h 0 bytes
    | .error _ => d

/-- Removes a file or a whole directory, if there is one. -/
def discard (d : Disk) (p : Path) : Disk :=
  match d.find p with
  | .ok (l, _) => { d with nodes := d.nodes.filter fun k _ => !l.isPrefixOf k }
  | .error _ => d

end Disk

end Ensemble
