import Ensemble.Properties.Basic
import Ensemble.Server
import Ensemble.Table

/-!
# Members

The servers of a membership by id, and the parts that vote and that observe.
-/

namespace Ensemble

structure Members where
  table : Table ServerId Server
  /-- Every server stands under its own id. -/
  keyed : ∀ e ∈ table.toList, e.1 = e.2.id

namespace Members

instance : DecidableEq Members := fun a b =>
  decidable_of_iff (a.table = b.table) (by cases a; cases b; simp)

def empty : Members := ⟨.empty, by simp [Table.empty]⟩

/-- The members that vote. -/
def voting (m : Members) : Table ServerId Server := m.table.filter fun _ s => s.isParticipant

/-- The members that do not vote. -/
def observing (m : Members) : Table ServerId Server := m.table.filter fun _ s => !s.isParticipant

def voterIds (m : Members) : List ServerId := m.voting.keys

/-- Adds a server with an id of its own. -/
def add (m : Members) (s : Server) : Except ConfigError Members :=
  if m.table.contains s.id then throw (.duplicateServer s.id)
  else pure ⟨m.table.insert s.id s, fun e he => by
    rcases Table.mem_insertEntry he with rfl | he
    · rfl
    · exact m.keyed e he⟩

def ofServers (servers : List Server) : Except ConfigError Members := servers.foldlM add empty

/-! ## Text -/

/-- Reads the id in a key, what follows the stem of which is `suffix`. -/
def readId (key suffix : String) : Except ConfigError UInt64 :=
  match Text.uint64? (String.ofList (Text.trim suffix.toList)) with
  | some id => pure id
  | none => throw (.invalidValue key suffix .idNotNumber)

/-- Reads the entries `server.<id>` in key order. Other entries are ignored. -/
def ofProperties (props : Properties) : Except ConfigError Members :=
  props.toList.foldlM (fun m entry =>
    match MembershipKey.suffix? MembershipKey.server entry.1 with
    | some suffix => do
      let id ← readId entry.1 suffix
      m.add (← Server.ofText id entry.2)
    | none => pure m) empty

/-- The entries that declare the members, by id. -/
def lines (m : Members) : List String :=
  m.table.values.map fun s => Server.key s.id ++ "=" ++ s.text

end Members

/-- Reads the entry `version`, which is 0 where it is missing. -/
def Version.ofProperties (props : Properties) : Except ConfigError Version :=
  match props.get? MembershipKey.version with
  | none => pure 0
  | some raw => match Text.hex64? (String.ofList (Text.trim raw.toList)) with
    | some v => pure v
    | none => throw (.invalidValue MembershipKey.version raw .notHex)

/-- The entry that states a version. -/
def Version.line (v : Version) : String := MembershipKey.version ++ "=" ++ Text.hex v.toNat

end Ensemble
