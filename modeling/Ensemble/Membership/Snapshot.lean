import Ensemble.Json.Printer
import Ensemble.Json.Reader
import Ensemble.Membership.Registry

/-!
# Snapshots

What a registry shows of its membership at a moment, and how that is written as JSON.
-/

namespace Ensemble

structure Snapshot where
  state : MembershipState
  strategy : Strategy
  version : Version
  voting : List ServerId
  observers : List ServerId
  groups : Option (Table GroupId (List ServerId)) := none
  nextVersion : Option Version := none
deriving DecidableEq

def Registry.snapshot (r : Registry) : Snapshot where
  state := r.state
  strategy := r.active.strategy
  version := r.active.version
  voting := r.active.voting.keys
  observers := r.active.observing.keys
  groups := match r.active with
    | .majority _ => none
    | .hierarchical h => some h.groups
  nextVersion := r.next.map Verifier.version

def Strategy.name : Strategy → String
  | .majority => "majority"
  | .hierarchical => "hierarchical"

def MembershipState.name : MembershipState → String
  | .uninitialized => "uninitialized"
  | .active _ => "active"
  | .reconfigProposed .. => "reconfig_proposed"

namespace Json

/-! ## Writing -/

def ofString (s : String) : Json := .string s.toList

def ofWord (n : UInt64) : Json := .number (.integer false n.toNat)

def ofWords (ns : List UInt64) : Json := .array (ns.map ofWord)

/-- An object with the fields that are there. -/
def ofFields (fields : List (String × Option Json)) : Json :=
  .object (fields.filterMap fun f => f.2.map fun j => (f.1.toList, j))

def ofState (s : MembershipState) : Json :=
  ofFields (("state", some (ofString s.name)) :: match s with
    | .uninitialized => []
    | .active v => [("version", some (ofWord v))]
    | .reconfigProposed v n => [("version", some (ofWord v)), ("next_version", some (ofWord n))])

def ofGroups (groups : Table GroupId (List ServerId)) : Json :=
  .object (groups.toList.map fun e => (Nat.toDigits 10 e.1.toNat, ofWords e.2))

def ofSnapshot (s : Snapshot) : Json :=
  ofFields [("state", some (ofState s.state)), ("strategy", some (ofString s.strategy.name)),
    ("version", some (ofWord s.version)), ("voting", some (ofWords s.voting)),
    ("observers", some (ofWords s.observers)), ("groups", s.groups.map ofGroups),
    ("next_version", s.nextVersion.map ofWord)]

/-! ## Reading -/

/-- The values of the fields named, a value each. Other fields are ignored; a key without a text and
a name that comes twice are refused. -/
def named? (names : List String) : List (List Char × Json) → Option (List (String × Json))
  | [] => some []
  | (spelling, j) :: rest => do
    let key ← spelled? spelling
    let found ← named? names rest
    if names.contains key then
      if found.any fun f => f.1 == key then none else some ((key, j) :: found)
    else some found

/-- The fields of a record: named in an object, or in order in an array. -/
def record? (names : List String) : Json → Option (List (String × Json))
  | .object fields => named? names fields
  | .array items => if items.length ≤ names.length then some (names.zip items) else none
  | _ => none

def words? : Json → Option (List UInt64)
  | .array items => items.mapM uint64?
  | _ => none

/-- A value that may be missing or null. -/
def optional? {α : Type} (read? : Json → Option α) : Option Json → Option (Option α)
  | none => some none
  | some .null => some none
  | some j => (read? j).map some

/-- A strategy, by its name or by an object that holds null under its name. -/
def strategy? (j : Json) : Option Strategy := do
  let name ← match j with
    | .string spelling => spelled? spelling
    | .object [(spelling, .null)] => spelled? spelling
    | _ => none
  if name = Strategy.majority.name then some .majority
  else if name = Strategy.hierarchical.name then some .hierarchical
  else none

/-- The groups under their ids as keys. The last list given for an id stays. -/
def groups? : Json → Option (Table GroupId (List ServerId))
  | .object fields => do
    let entries ← fields.mapM fun (spelling, j) => do
      return (← spelledWord? spelling, ← words? j)
    return Table.ofList entries
  | _ => none

/-- The name of a state and the value that holds its other fields: an object with the name under
`state`, or an array that starts with the name. -/
def stateTag? : Json → Option (String × Json)
  | .object fields => do
    match ← named? ["state"] fields with
    | [(_, tag)] => return (← tag.text?, .object fields)
    | _ => none
  | .array (tag :: items) => do return (← tag.text?, .array items)
  | _ => none

/-- The state of a name and the value that holds its other fields. -/
def stateOf? (name : String) (rest : Json) : Option MembershipState :=
  if name = "uninitialized" then
    match rest with
    | .array (_ :: _) => none
    | _ => some .uninitialized
  else if name = "active" then do
    let fields ← record? ["version"] rest
    return .active (← (← fields.lookup "version").uint64?)
  else if name = "reconfig_proposed" then do
    let fields ← record? ["version", "next_version"] rest
    return .reconfigProposed (← (← fields.lookup "version").uint64?)
      (← (← fields.lookup "next_version").uint64?)
  else none

/-- A state. All of its value has to be meaningful, fields that are ignored included, and it may not
nest too deep. -/
def state? (j : Json) : Option MembershipState := do
  if !j.isMeaningful || 126 < j.depth then none
  let (name, rest) ← stateTag? j
  stateOf? name rest

/-- A snapshot. Groups and the next version may be missing or null. -/
def snapshot? (j : Json) : Option Snapshot := do
  let fields ← record?
    ["state", "strategy", "version", "voting", "observers", "groups", "next_version"] j
  return {
    state := ← state? (← fields.lookup "state")
    strategy := ← strategy? (← fields.lookup "strategy")
    version := ← (← fields.lookup "version").uint64?
    voting := ← words? (← fields.lookup "voting")
    observers := ← words? (← fields.lookup "observers")
    groups := ← optional? groups? (fields.lookup "groups")
    nextVersion := ← optional? uint64? (fields.lookup "next_version") }

end Json

namespace Snapshot

/-- The JSON text of a snapshot. -/
def text (s : Snapshot) : String := (Json.ofSnapshot s).pretty

/-- Reads the JSON text of a snapshot. -/
def ofText? (text : String) : Option Snapshot := do Json.snapshot? (← Json.ofText? text)

end Snapshot

end Ensemble
