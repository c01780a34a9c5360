import Ensemble.Config.Context
import Ensemble.Quorum.Verifier
import Ensemble.Reported

/-!
# Population rules

How many participants and observers a membership may have, and what it has to declare of them.
-/

namespace Ensemble

/-- Refuses a membership whose voters or observers cannot work together in a context. Where more
than one server runs an election, every voter needs an endpoint for it. -/
def checkPopulation (v : Verifier) (electionAlg : UInt32) (context : Context) :
    Except ConfigError Unit :=
  if v.voting.size = 0 then
    if !context.standalone then throw (.population .noParticipant)
    else if 0 < v.observing.size then throw (.population .observersOnly)
    else pure ()
  else if v.voting.size = 1 ∧ context.standalone then
    if 0 < v.observing.size then throw (.population .observersOfOne) else pure ()
  else if electionAlg = 0 then pure ()
  else match v.voting.values.find? fun s => s.election.isNone with
    | some s => throw (.missingElectionEndpoint s.id)
    | none => pure ()

/-- What is odd about a population. Only the notice of a single participant is given without
`warnings`. -/
def populationNotices (v : Verifier) (warnings : Bool) (context : Context) : List Notice :=
  let participants := v.voting.size
  if participants = 0 then []
  else if participants = 1 ∧ context.standalone then [.singleParticipant v.observing.size]
  else if !warnings then []
  else if participants ≤ 2 then [.noFaultTolerance participants]
  else if participants % 2 = 0 then [.evenParticipants participants]
  else []

/-- Checks a population and gives notice of what is odd about it. -/
def reportPopulation (v : Verifier) (electionAlg : UInt32) (warnings : Bool) (context : Context) :
    Reported Unit := do
  Reported.notify (populationNotices v warnings context)
  checkPopulation v electionAlg context

/-- The first key that is no part of a membership. -/
def foreignKey? (props : Properties) : Option String :=
  props.keys.find? fun key => !MembershipKey.declares key && key != MembershipKey.version

/-- Reads a membership and checks its population. Unless `lenient`, no other entries may stand
beside those of the membership. -/
def readMembership (props : Properties) (electionAlg : UInt32) (warnings lenient : Bool)
    (context : Context) : Reported Verifier := do
  if !lenient then
    if let some key := foreignKey? props then Reported.refuse (.unrecognisedParameter key)
  let v ← Verifier.ofProperties props
  reportPopulation v electionAlg warnings context
  return v

end Ensemble
