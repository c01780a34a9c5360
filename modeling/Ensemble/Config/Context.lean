/-!
# Contexts

Two switches of a deployment that decide which memberships are accepted.
-/

namespace Ensemble

structure Context where
  /-- A single participant may run alone. -/
  standalone : Bool := true
  /-- The membership may be changed while the ensemble runs. -/
  reconfig : Bool := false
deriving DecidableEq, Repr

end Ensemble
