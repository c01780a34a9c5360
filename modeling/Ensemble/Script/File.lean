import Ensemble.Properties.Reader
import Ensemble.Script.AtomicFile

/-!
# Files by path

Reading and removing whole files, and checks of a path before it is used.
-/

namespace Ensemble

/-- The text of a file, which has to be UTF-8. -/
def readText (p : Path) : FileAction String := do
  let bytes ← ExceptT.mk (Script.perform (.read p))
  match String.fromUTF8? bytes with
  | some text => return text
  | none => throw .invalidData

def isPresent (p : Path) : Script Bool := Script.perform (.isPresent p)

/-- Removes a file, if it is there. A failure is only reported. -/
def removeFile (p : Path) : Script Unit := do
  match ← Script.perform (.remove p) with
  | .ok () => return ()
  | .error .notFound => return ()
  | .error e => Script.notify [.deleteFailed p e]

/-- Reads a file of properties. -/
def Properties.ofFile (p : Path) : Action Properties := do
  let text ← Action.onFile p (readText p)
  Action.ofExcept (Properties.ofText text)

/-- How much a path is checked before it is used. -/
inductive PathCheck
  | unchecked
  /-- A relative path that does not start with `.` is worth a notice. -/
  | warned
  /-- Moreover there has to be something at the path. -/
  | strict
deriving DecidableEq, Repr

/-- The notice that a path is relative and does not say so by a `.` at its start. -/
def PathCheck.notices (c : PathCheck) (p : Path) : List Notice :=
  if c ≠ .unchecked ∧ p.isRelative ∧ !p.isExplicitlyLocal then [.relativePath p] else []

def PathCheck.verify (c : PathCheck) (p : Path) : Action Path := do
  Script.notify (c.notices p)
  if c = .strict then
    if !(← isPresent p) then throw (.missingFile p)
  return p

end Ensemble
