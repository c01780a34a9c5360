import Ensemble.Members

/-!
# Majorities

A quorum is more than half of the members that vote.
-/

namespace Ensemble

structure Majority where
  members : Members
  /-- Half the number of voters, rounded down. -/
  half : Nat
  version : Version
  half_eq : half = members.voting.size / 2
deriving DecidableEq

namespace Majority

/-- Counts the voters once. -/
def ofMembers (members : Members) (version : Version) : Majority :=
  ⟨members, members.voting.size / 2, version, rfl⟩

/-- A majority is made of its members and its version. -/
theorem ofMembers_members (m : Majority) : ofMembers m.members m.version = m := by
  obtain ⟨members, half, version, rfl⟩ := m
  rfl

def ofServers (servers : List Server) (version : Version) : Except ConfigError Majority := do
  return ofMembers (← Members.ofServers servers) version

/-- Reads the entries `server.<id>` and `version`. Other entries are ignored. -/
def ofProperties (props : Properties) : Except ConfigError Majority := do
  let members ← Members.ofProperties props
  return ofMembers members (← Version.ofProperties props)

/-- Every member weighs 1. -/
def weight? (m : Majority) (id : ServerId) : Option Weight :=
  if m.members.table.contains id then some 1 else none

/-- Whether the set of ids in `acks` holds more than half of the voters. -/
def containsQuorum (m : Majority) (acks : List ServerId) : Bool :=
  m.half < (Table.distinct acks).countP m.members.voting.contains

def lines (m : Majority) : List String := m.members.lines ++ [m.version.line]

end Majority

end Ensemble
