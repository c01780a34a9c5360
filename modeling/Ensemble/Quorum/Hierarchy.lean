import Ensemble.Members

/-!
# Hierarchies

The voters fall into groups and have weights. A group is carried by more than half of its weight,
and a quorum carries more than half of the groups that weigh anything. A group without weight is
never carried and does not count.
-/

namespace Ensemble

/-- The group of a voter, and what its vote weighs there. -/
structure Share where
  group : GroupId
  weight : Weight
deriving DecidableEq, Repr

namespace Hierarchy

def groupKey (g : GroupId) : String := MembershipKey.group ++ Text.decimal g.toNat

def weightKey (id : ServerId) : String := MembershipKey.weight ++ Text.decimal id.toNat

/-- Adds a voter's weight to the total of its group, which has to stay a 64-bit word. -/
def addShare (totals : Table GroupId Weight) (id : ServerId) (s : Share) :
    Except ConfigError (Table GroupId Weight) :=
  let total := (totals.get? s.group).getD 0
  if total.toNat + s.weight.toNat < UInt64.size then
    pure (totals.insert s.group (total + s.weight))
  else
    throw (.invalidValue (weightKey id) (Text.decimal s.weight.toNat) (.groupOverflow s.group))

/-- The total weight of each group that has a member. -/
def groupTotals (shares : List (ServerId × Share)) : Except ConfigError (Table GroupId Weight) :=
  shares.foldlM (fun totals e => addShare totals e.1 e.2) .empty

end Hierarchy

structure Hierarchy where
  members : Members
  shares : Table ServerId Share
  groupWeights : Table GroupId Weight
  /-- The number of groups that weigh anything. -/
  numGroups : Nat
  version : Version
  /-- Somebody votes. -/
  voting_ne_empty : members.voting.isEmpty = false
  /-- Exactly the voters have shares. -/
  keys_shares : shares.keys = members.voterIds
  groupTotals_shares : Hierarchy.groupTotals shares.toList = .ok groupWeights
  numGroups_eq : numGroups = groupWeights.values.countP fun w => 0 < w

namespace Hierarchy

/-! ## Construction -/

/-- Puts a voter that has no group yet into group `g`. -/
def assign (members : Members) (g : GroupId) (groupOf : Table ServerId GroupId) (id : ServerId) :
    Except ConfigError (Table ServerId GroupId) :=
  if !members.voting.contains id then throw (.unknownGroupMember (groupKey g) id)
  else match groupOf.get? id with
    | some first => throw (.duplicateGroupMembership id first g)
    | none => pure (groupOf.insert id g)

/-- The group of each voter that is listed in one. -/
def assignAll (members : Members) (groups : Table GroupId (List ServerId)) :
    Except ConfigError (Table ServerId GroupId) :=
  groups.toList.foldlM (fun groupOf e =>
    if e.2 = [] then throw (.invalidValue (groupKey e.1) "" .emptyGroup)
    else e.2.foldlM (assign members e.1) groupOf) .empty

/-- Refuses a weight for anyone but a voter. -/
def checkWeights (members : Members) (weights : Table ServerId Weight) : Except ConfigError Unit :=
  weights.keys.forM fun id =>
    if members.voting.contains id then pure ()
    else throw (.unknownGroupMember (weightKey id) id)

/-- Makes a hierarchy of groups that hold every voter once. A voter without a weight weighs 1. -/
def make (members : Members) (groups : Table GroupId (List ServerId))
    (weights : Table ServerId Weight) (version : Version) : Except ConfigError Hierarchy := do
  if hv : members.voting.isEmpty = false then
    let groupOf ← assignAll members groups
    checkWeights members weights
    let ⟨shares, keys_shares⟩ ← members.voting.mapM fun id _ =>
      match groupOf.get? id with
      | some g => pure (⟨g, (weights.get? id).getD 1⟩ : Share)
      | none => throw (ConfigError.ungroupedParticipant id)
    match h : groupTotals shares.toList with
    | .ok groupWeights =>
      let numGroups := groupWeights.values.countP fun w => 0 < w
      return ⟨members, shares, groupWeights, numGroups, version, hv, keys_shares, h, rfl⟩
    | .error e => throw e
  else throw (.population .noParticipantInHierarchy)

def ofServers (servers : List Server) (groups : Table GroupId (List ServerId))
    (weights : Table ServerId Weight) (version : Version) : Except ConfigError Hierarchy := do
  make (← Members.ofServers servers) groups weights version

/-- Reads the ids of a group between colons. Empty places are ignored. -/
def readGroup (key value : String) : Except ConfigError (List ServerId) :=
  (((Text.fields ':' value.toList).map Text.trim).filter (· ≠ [])).mapM fun part =>
    Members.readId key (String.ofList part)

def readWeight (key value : String) : Except ConfigError Weight :=
  match Text.uint64? (String.ofList (Text.trim value.toList)) with
  | some w => pure w
  | none => throw (.invalidValue key value .weightNotNumber)

/-- Reads the entries `group.<id>` and `weight.<id>` in key order. -/
def readGroups (props : Properties) :
    Except ConfigError (Table GroupId (List ServerId) × Table ServerId Weight) :=
  props.toList.foldlM (fun (groups, weights) entry =>
    match MembershipKey.suffix? MembershipKey.group entry.1 with
    | some suffix => do
      let g ← Members.readId entry.1 suffix
      return (groups.insert g (← readGroup entry.1 entry.2), weights)
    | none => match MembershipKey.suffix? MembershipKey.weight entry.1 with
      | some suffix => do
        let id ← Members.readId entry.1 suffix
        return (groups, weights.insert id (← readWeight entry.1 entry.2))
      | none => pure (groups, weights)) (.empty, .empty)

/-- Reads the entries of a membership. Other entries are ignored. -/
def ofProperties (props : Properties) : Except ConfigError Hierarchy := do
  let members ← Members.ofProperties props
  let (groups, weights) ← readGroups props
  make members groups weights (← Version.ofProperties props)

/-! ## Questions -/

def weight? (h : Hierarchy) (id : ServerId) : Option Weight := (h.shares.get? id).map Share.weight

def groupOf? (h : Hierarchy) (id : ServerId) : Option GroupId := (h.shares.get? id).map Share.group

def groupWeight? (h : Hierarchy) (g : GroupId) : Option Weight := h.groupWeights.get? g

/-- The members of each group by id. -/
def groups (h : Hierarchy) : Table GroupId (List ServerId) :=
  h.shares.toList.foldl (fun t e =>
    t.insert e.2.group ((t.get? e.2.group).getD [] ++ [e.1])) .empty

/-- The sum, or the largest word where that is larger. -/
def addSaturating (a b : Weight) : Weight :=
  UInt64.ofNat (min (a.toNat + b.toNat) (UInt64.size - 1))

/-- Adds a voter's weight to what is acknowledged of its group. -/
def addAcked (acked : Table GroupId Weight) (s : Share) : Table GroupId Weight :=
  acked.insert s.group (addSaturating ((acked.get? s.group).getD 0) s.weight)

/-- What is acknowledged of each group, id by id. Those of no voters are skipped. -/
def ackedWeights (h : Hierarchy) (ids : List ServerId) : Table GroupId Weight :=
  ids.foldl (fun acked id => match h.shares.get? id with
    | some s => addAcked acked s
    | none => acked) .empty

/-- Whether the set of ids in `acks` carries more than half of the groups that weigh anything. -/
def containsQuorum (h : Hierarchy) (acks : List ServerId) : Bool :=
  if acks.isEmpty then false
  else
    let carried := (h.ackedWeights (Table.distinct acks)).toList.countP fun e =>
      (h.groupWeights.get? e.1).getD 0 / 2 < e.2
    h.numGroups / 2 < carried

/-! ## Text -/

def groupLine (g : GroupId) (ids : List ServerId) : String :=
  groupKey g ++ "=" ++ ":".intercalate (ids.map fun id => Text.decimal id.toNat)

def weightLine (id : ServerId) (w : Weight) : String :=
  weightKey id ++ "=" ++ Text.decimal w.toNat

def lines (h : Hierarchy) : List String :=
  h.members.lines ++ h.groups.toList.map (fun e => groupLine e.1 e.2) ++
    h.shares.toList.map (fun e => weightLine e.1 e.2.weight) ++ [h.version.line]

end Hierarchy

end Ensemble
