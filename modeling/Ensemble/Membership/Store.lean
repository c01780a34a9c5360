import Ensemble.Membership.Files

/-!
# Stores

The disk side of a membership that changes. A commit writes the new dynamic file, then makes the
static file name it, then removes what is no longer needed; both files are replaced by a rename, so
at every point the static file names a complete dynamic file.
-/

namespace Ensemble

structure Store where
  layout : Layout
  /-- The dynamic file that the static file names. -/
  activeFile : Option Path := none
  /-- Whether a commit drops the settings of the client port from the static file. -/
  eraseClientPort : Bool := false
deriving DecidableEq, Repr

namespace Store

/-- Where a proposal is kept: beside the dynamic file in force. -/
def nextFile (s : Store) : Path :=
  match s.activeFile with
  | some file => file.nextFile
  | none => s.layout.nextFile

/-- Writes a proposal. -/
def writeNext (s : Store) (v : Verifier) : Action Path := do
  writeDynamic s.nextFile v true
  return s.nextFile

/-- Removes the proposal. -/
def clearNext (s : Store) : Script Unit := removeFile s.nextFile

/-- Copies the static file to its backup, unless there is one. -/
def backupOnce (s : Store) : Action (Option Path) := do
  if ← isPresent s.layout.backupFile then return none
  else return some (← backupStatic s.layout)

/-- Whether two paths lead to the same place, or take the same steps where one of them leads
nowhere. -/
def sameFile (p q : Path) : Script Bool := do
  match ← Script.perform (.canonical p), ← Script.perform (.canonical q) with
  | .ok a, .ok b => return a = b
  | _, _ => return p.sameSteps q

/-- Removes the dynamic file that was in force, unless it is the new one. -/
def removePrevious (s : Store) (file : Path) : Script Unit := do
  match s.activeFile with
  | none => return ()
  | some previous => if ← sameFile previous file then return () else removeFile previous

/-- Puts a membership in force. -/
def commit (s : Store) (v : Verifier) : Action Store := do
  let file := s.layout.dynamicFile v.version
  writeDynamic file v false
  pointStatic s.layout.staticFile file s.eraseClientPort
  s.removePrevious file
  s.clearNext
  return { s with activeFile := some file }

end Store

end Ensemble
