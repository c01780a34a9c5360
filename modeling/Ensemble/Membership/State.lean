import Ensemble.Quorum.Verifier

/-!
# States of a membership

Whether a membership is known, and whether another is proposed.
-/

namespace Ensemble

inductive MembershipState
  | uninitialized
  | active (version : Version)
  | reconfigProposed (version next : Version)
deriving DecidableEq, Repr

def MembershipState.ofVerifiers (active next : Option Verifier) : MembershipState :=
  match active, next with
  | none, _ => .uninitialized
  | some v, none => .active v.version
  | some v, some w => .reconfigProposed v.version w.version

end Ensemble
