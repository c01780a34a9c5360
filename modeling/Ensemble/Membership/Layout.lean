import Ensemble.Ids
import Ensemble.Path
import Ensemble.Text.Numeral

/-!
# Names of the files of a membership

Around a static file `zoo.cfg` a membership of version `1f` is kept in `zoo.cfg.dynamic.1f`, one
that is proposed in `zoo.cfg.dynamic.next`, and the static file of before in `zoo.cfg.bak`.
-/

namespace Ensemble

/-- The version that the name of a dynamic file ends in, after its last dot. A name that is no text
states none. -/
def Path.version? (p : Path) : Option Version := do
  let name ← p.fileName?
  let text ← Path.toText? ⟨String.ofList name⟩
  let (_, ending) ← Path.cutLast '.' text.toList
  Text.hex64? (String.ofList ending)

/-- The file of a proposal beside an active dynamic file: the version in the name of that, if there
is one, gives way to `next`. -/
def Path.nextFile (dynamicFile : Path) : Path :=
  (if dynamicFile.version?.isSome then dynamicFile.dropExtension else dynamicFile).append ".next"

/-- The files around a static file. -/
structure Layout where
  staticFile : Path
deriving DecidableEq, Repr

namespace Layout

def dynamicBase (l : Layout) : Path := l.staticFile.append ".dynamic"

def dynamicFile (l : Layout) (v : Version) : Path :=
  l.dynamicBase.append ("." ++ Text.hex v.toNat)

def nextFile (l : Layout) : Path := l.dynamicBase.append ".next"

def backupFile (l : Layout) : Path := l.staticFile.append ".bak"

end Layout

end Ensemble
