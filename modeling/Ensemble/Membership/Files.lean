import Ensemble.Membership.Layout
import Ensemble.Quorum.Verifier
import Ensemble.Script.File

/-!
# Files of a membership

The dynamic file, which holds a membership; the static file, which names the dynamic file in force;
and the backup of the static file.
-/

namespace Ensemble

/-! ## Dynamic files -/

/-- The lines of the canonical text, each ended. Without `keepVersion` the lines that state a
version are left out, for the file name states it. -/
def Verifier.fileText (v : Verifier) (keepVersion : Bool) : String :=
  let kept := (Text.lines v.text.toList).filter fun line =>
    keepVersion || !"version=".toList.isPrefixOf line
  String.ofList (['\n'].intercalate kept ++ ['\n'])

/-- Replaces a file by the text of a membership. -/
def writeDynamic (file : Path) (v : Verifier) (keepVersion : Bool) : Action Unit :=
  Action.onFile file (replaceFile file [(v.fileText keepVersion).toUTF8] none)

/-! ## Static files -/

/-- Whether an entry of the static file survives when a dynamic file is named. The entries of a
membership and of the dynamic file do not, nor those of the client port if they are to be erased. -/
def staysInStatic (eraseClientPort : Bool) (key : String) : Bool :=
  !(MembershipKey.declares key || key == MembershipKey.version ||
    key == Setting.dynamicConfigFile.key ||
    (eraseClientPort && MembershipKey.startsWith Setting.clientPort.key key))

/-- An entry, as a line with escapes in its value. -/
def entryLine (key value : String) : String :=
  key ++ "=" ++ String.ofList (Properties.escape value.toList) ++ "\n"

/-- The surviving entries of a static file, and the one that names the dynamic file. -/
def staticText (props : Properties) (dynamicFile : Path) (eraseClientPort : Bool) : String :=
  let kept := props.toList.filter fun e => staysInStatic eraseClientPort e.1
  String.join (kept.map fun e => entryLine e.1 e.2) ++
    entryLine Setting.dynamicConfigFile.key dynamicFile.display

/-- Makes the static file name a dynamic file, by its path from the top. -/
def pointStatic (staticFile dynamicFile : Path) (eraseClientPort : Bool) : Action Unit := do
  if !(← isPresent staticFile) then throw (.missingFile staticFile)
  let named ← Action.onFile dynamicFile (ExceptT.mk (Script.perform (.canonical dynamicFile)))
  let props ← Properties.ofFile staticFile
  Action.onFile staticFile
    (replaceFile staticFile [(staticText props named eraseClientPort).toUTF8] none)

/-- Copies the static file to its backup. -/
def backupStatic (l : Layout) : Action Path := do
  let bytes ← Action.onFile l.staticFile (ExceptT.mk (Script.perform (.read l.staticFile)))
  Action.onFile l.backupFile (replaceFile l.backupFile [bytes] none)
  return l.backupFile

end Ensemble
