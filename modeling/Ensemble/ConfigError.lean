import Ensemble.Config.Setting
import Ensemble.Disk.FileError
import Ensemble.Endpoint.Basic
import Ensemble.Ids
import Ensemble.Path
import Ensemble.Text.Quoted

/-!
# What is wrong with a configuration

The causes for which reading, checking or changing a configuration is refused, and their texts.
-/

namespace Ensemble

/-- What is wrong with a value. -/
inductive Flaw
  | unclosedBracket
  | notHostPort
  | portNotNumber
  | unknownRole
  | notServerEntry
  | idNotNumber
  | notHex
  | weightNotNumber
  | emptyGroup
  | groupOverflow (group : GroupId)
  | notPort
  | notNatural
  | notRole
  | notFlag
  | serverIdNotNumber
deriving DecidableEq, Repr

/-- Why a number of participants and observers is refused. -/
inductive PopulationFlaw
  | noParticipantInHierarchy
  | noParticipant
  | observersOnly
  | observersOfOne
deriving DecidableEq, Repr

/-- Why a configuration is refused. -/
inductive ConfigError
  /-- An entry without a key; `line` counts from 1. -/
  | malformed (line : Nat) (entry : String)
  | invalidValue (key value : String) (flaw : Flaw)
  | duplicateServer (server : ServerId)
  | duplicateGroupMembership (server : ServerId) (first second : GroupId)
  | ungroupedParticipant (server : ServerId)
  | unknownGroupMember (key : String) (server : ServerId)
  | missingSetting (key : String)
  | membershipInStaticFile (key : String)
  | unrecognisedParameter (key : String)
  | versionInDynamicFile (file : Path)
  | clientEndpointConflict (server : ServerId) (configured declared : Endpoint)
  | addressWithoutPort (address port : Setting)
  | addressFamilyMismatch (first second : Endpoint)
  | missingElectionEndpoint (server : ServerId)
  | authDependency (prerequisite dependent : Setting)
  | population (flaw : PopulationFlaw)
  | sessionTimeoutRange (min max : UInt32)
  | staleVersion (active proposed : Version)
  | noPendingProposal
  | reconfigDisabled
  | notLoaded
  | missingFile (file : Path)
  | diskFailure (file : Path) (error : FileError)
deriving DecidableEq, Repr

open Text

def Flaw.message : Flaw → String
  | .unclosedBracket => "starts with '[' but has no matching ']:'"
  | .notHostPort => "expected host:port"
  | .portNotNumber => "port is not a number"
  | .unknownRole => "unrecognised role"
  | .notServerEntry => "expected host:port[:clientHost:clientPort][:role]"
  | .idNotNumber => "identifier is not a number"
  | .notHex => "not a hex number"
  | .weightNotNumber => "weight is not a number"
  | .emptyGroup => "group has no members"
  | .groupOverflow group => s!"weight of group {decimal group.toNat} overflows"
  | .notPort => "not a port number"
  | .notNatural => "not a non-negative integer"
  | .notRole => "expected participant or observer"
  | .notFlag => "choose 'true' or 'false'"
  | .serverIdNotNumber => "server id is not a number"

def PopulationFlaw.message : PopulationFlaw → String
  | .noParticipantInHierarchy => "hierarchical membership has no participants"
  | .noParticipant => "standaloneEnabled is false, so the number of participants must be > 0"
  | .observersOnly => "observers without participants"
  | .observersOfOne => "observers without a quorum"

def ConfigError.message : ConfigError → String
  | .malformed line entry =>
    s!"malformed entry at line {decimal line}: missing key in {quote entry}"
  | .invalidValue key value flaw => s!"invalid value for {key}: {quote value} ({flaw.message})"
  | .duplicateServer s => s!"server {decimal s.toNat} is declared more than once"
  | .duplicateGroupMembership s a b =>
    s!"server {decimal s.toNat} is in multiple groups ({decimal a.toNat} and {decimal b.toNat})"
  | .ungroupedParticipant s => s!"participant {decimal s.toNat} is not in a group"
  | .unknownGroupMember key s =>
    s!"{key} references server {decimal s.toNat}, which is not a participant"
  | .missingSetting key => s!"{key} is not set"
  | .membershipInStaticFile key => s!"parameter {key} must be in a separate dynamic config file"
  | .unrecognisedParameter key => s!"unrecognised parameter: {key}"
  | .versionInDynamicFile file =>
    s!"dynamic config file {file.display} must not carry a version entry"
  | .clientEndpointConflict s configured declared =>
    s!"client address for server {decimal s.toNat} in static config is {configured.text}, " ++
      s!"which differs from {declared.text} in the dynamic membership"
  | .addressWithoutPort address port => s!"{address.key} is set but {port.key} is not set"
  | .addressFamilyMismatch a b => s!"address family mismatch: {a.text} and {b.text}"
  | .missingElectionEndpoint s => s!"missing election endpoint for server {decimal s.toNat}"
  | .authDependency prerequisite dependent =>
    s!"{prerequisite.key} is disabled, so cannot enable {dependent.key}"
  | .population flaw => s!"invalid membership population: {flaw.message}"
  | .sessionTimeoutRange min max =>
    s!"minSessionTimeout {decimal min.toNat} must not be larger than " ++
      s!"maxSessionTimeout {decimal max.toNat}"
  | .staleVersion active proposed =>
    s!"reconfiguration version 0x{hex proposed.toNat} does not advance " ++
      s!"active version 0x{hex active.toNat}"
  | .noPendingProposal => "no reconfiguration proposal is pending"
  | .reconfigDisabled => "reconfiguration is disabled"
  | .notLoaded => "no membership has been loaded"
  | .missingFile file => s!"{file.display} file is missing"
  | .diskFailure file error => s!"error processing {file.display}: {error.message}"

end Ensemble
