import Ensemble.Config.Basic
import Ensemble.Membership.Store
import Ensemble.Quorum.Population

/-!
# Registries

The membership in force and at most one that is proposed. A proposal advances the version and obeys
the population rules; a commit puts it in force. Files are written first, so a request that fails on
the disk leaves the memberships as they were.
-/

namespace Ensemble

structure Registry where
  context : Context
  electionAlg : UInt32 := 3
  active : Verifier
  next : Option Verifier := none
  store : Option Store := none

/-- What may be asked of a registry. -/
inductive Request
  | propose (v : Verifier)
  | commit
  | abandon
  | reconfigure (v : Verifier)

namespace Registry

/-- The registry of a loaded configuration. A proposal that does not advance the version is dropped
with a notice. -/
def ofConfig (c : Config) : Reported Registry := do
  match c.membership with
  | none => Reported.refuse .notLoaded
  | some active =>
    let next ← match c.pending with
      | none => pure none
      | some next =>
        if active.version < next.version then pure (some next)
        else do
          Reported.notify [.nextIgnored active.version next.version]
          pure none
    let store := c.layout.map fun layout => { layout, activeFile := c.dynamicFile : Store }
    return { context := c.context, electionAlg := c.settings.electionAlg, active, next, store }

def state (r : Registry) : MembershipState := .ofVerifiers (some r.active) r.next

/-! ## Requests -/

/-- Refuses a version that is not larger than the one in force. -/
def checkVersion (r : Registry) (v : Verifier) : Except ConfigError Unit :=
  if v.version ≤ r.active.version then throw (.staleVersion r.active.version v.version)
  else pure ()

/-- Refuses what may not be proposed. -/
def checkProposal (r : Registry) (v : Verifier) : Reported Unit := do
  if !r.context.reconfig then Reported.refuse .reconfigDisabled
  r.checkVersion v
  reportPopulation v r.electionAlg false r.context

/-- Makes `v` the proposal, in place of an earlier one. -/
def propose (r : Registry) (v : Verifier) : Action Registry := do
  Action.ofReported (r.checkProposal v)
  match r.store with
  | none => pure ()
  | some store => let _ ← store.writeNext v
  return { r with next := some v }

/-- Commits to the store. The static file is backed up before, where the ensemble is changed while
it runs. -/
def commitStore (r : Registry) (store : Store) (v : Verifier) : Action Store := do
  if r.context.reconfig && r.active.isDistributed r.context then
    let _ ← store.backupOnce
  store.commit v

/-- Puts the proposal in force. -/
def commit (r : Registry) : Action Registry := do
  match r.next with
  | none => throw .noPendingProposal
  | some v =>
    Action.ofExcept (r.checkVersion v)
    match r.store with
    | none => return { r with active := v, next := none }
    | some store =>
      let store ← r.commitStore store v
      return { r with active := v, next := none, store := some store }

/-- Drops the proposal. -/
def abandon (r : Registry) : Script Registry := do
  match r.next, r.store with
  | some _, some store => store.clearNext
  | _, _ => pure ()
  return { r with next := none }

/-- Serves a request: the membership that it is about, or the refusal, and the registry after. -/
def serve (r : Registry) : Request → Script (Except ConfigError (Option Verifier) × Registry)
  | .propose v => do
    match ← (r.propose v).run with
    | .ok r' => return (.ok r'.next, r')
    | .error e => return (.error e, r)
  | .commit => do
    match ← r.commit.run with
    | .ok r' => return (.ok (some r'.active), r')
    | .error e => return (.error e, r)
  | .abandon => do return (.ok r.next, ← r.abandon)
  | .reconfigure v => do
    match ← (r.propose v).run with
    | .error e => return (.error e, r)
    | .ok r' => match ← r'.commit.run with
      | .ok r'' => return (.ok (some r''.active), r'')
      | .error e => return (.error e, r')

end Registry

end Ensemble
