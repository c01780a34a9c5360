import Ensemble.Script.Basic

/-!
# Atomic replacement of files

New content is written to a file beside the target and renamed over it. The rename is what changes
the target: up to then it is as before, and what was written is removed if the rename is not
reached.
-/

namespace Ensemble

/-- The file beside `target` that takes new content for it. -/
def Path.temporary (target : Path) : Path :=
  target.withFileName (target.fileName?.getD [] ++ ".tmp".toList)

/-- New content for `target`, of which `written` bytes stand in the temporary file. -/
structure AtomicWriter where
  target : Path
  temporary : Path
  handle : Handle
  written : Nat

namespace AtomicWriter

/-- Starts with nothing written, and makes the directories above the target. -/
def create (target : Path) : FileAction AtomicWriter := do
  match target.parent? with
  | some parent =>
    if !parent.text.isEmpty then ExceptT.mk (Script.perform (.makeDirectories parent))
  | none => pure ()
  let handle ← ExceptT.mk (Script.perform (.create target.temporary))
  return ⟨target, target.temporary, handle, 0⟩

def write (w : AtomicWriter) (bytes : ByteArray) : FileAction AtomicWriter := do
  ExceptT.mk (Script.perform (.writeAt w.handle w.written bytes))
  return { w with written := w.written + bytes.size }

/-- Gives up what was written. -/
def abandon (w : AtomicWriter) : Script Unit := do
  let _ ← Script.perform (.remove w.temporary)

/-- Puts what was written in place of the target. -/
def commit (w : AtomicWriter) : FileAction Unit :=
  ExceptT.mk do
    match ← Script.perform (.rename w.temporary w.target) with
    | .ok () => return .ok ()
    | .error e =>
      w.abandon
      return .error e

end AtomicWriter

/-- Replaces a file by the chunks in turn. With `failure` the content is given up after the last
chunk. -/
def replaceFile (target : Path) (chunks : List ByteArray) (failure : Option FileError) :
    FileAction Unit := do
  let w ← AtomicWriter.create target
  let write : FileAction Unit := do
    let _ ← chunks.foldlM AtomicWriter.write w
    if let some e := failure then throw e
  ExceptT.mk do
    match ← write.run with
    | .ok () => w.commit.run
    | .error e =>
      w.abandon
      return .error e

end Ensemble
