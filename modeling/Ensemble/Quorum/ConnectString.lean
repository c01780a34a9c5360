import Ensemble.Quorum.Verifier
import Ensemble.Reported

/-!
# Connect strings of texts

What clients are told of a membership that stands in a text. Server entries that cannot be read do
not matter to clients, so they are reported and left out.
-/

namespace Ensemble.Verifier

/-- The connect string of what a text states. -/
def connectStringOfText (text : String) : Reported String := do
  let props ← Properties.ofText text
  Reported.notify ((skippedServers props).map fun e => .serverEntrySkipped e.1 e.2)
  return connectString props

end Ensemble.Verifier
