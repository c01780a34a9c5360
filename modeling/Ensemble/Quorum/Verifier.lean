import Ensemble.Properties.Reader
import Ensemble.Quorum.Hierarchy
import Ensemble.Quorum.Majority

/-!
# Verifiers

A membership together with its rule for quorums: majorities or a hierarchy. Its canonical text
states every member, group and weight and the version, an entry a line.
-/

namespace Ensemble

/-- How quorums are formed. -/
inductive Strategy
  | majority
  | hierarchical
deriving DecidableEq, Repr

/-- A membership and its rule for quorums. -/
inductive Verifier
  | majority (rule : Majority)
  | hierarchical (rule : Hierarchy)

/-- Entries that state a group or a weight make a hierarchy. -/
def Strategy.detect (props : Properties) : Strategy :=
  if props.keys.any fun key => MembershipKey.startsWith MembershipKey.group key ||
      MembershipKey.startsWith MembershipKey.weight key then .hierarchical
  else .majority

namespace Verifier

def ofProperties (props : Properties) : Except ConfigError Verifier :=
  match Strategy.detect props with
  | .majority => (Majority.ofProperties props).map .majority
  | .hierarchical => (Hierarchy.ofProperties props).map .hierarchical

def ofText (text : String) : Except ConfigError Verifier := do
  ofProperties (← Properties.ofText text)

def strategy : Verifier → Strategy
  | .majority _ => .majority
  | .hierarchical _ => .hierarchical

def version : Verifier → Version
  | .majority m => m.version
  | .hierarchical h => h.version

/-- The same membership under another version. -/
def withVersion (version : Version) : Verifier → Verifier
  | .majority m => .majority { m with version }
  | .hierarchical h => .hierarchical { h with version }

def members : Verifier → Members
  | .majority m => m.members
  | .hierarchical h => h.members

/-- The members that vote. -/
def voting (v : Verifier) : Table ServerId Server := v.members.voting

/-- The members that do not vote. -/
def observing (v : Verifier) : Table ServerId Server := v.members.observing

def weight? (v : Verifier) (id : ServerId) : Option Weight :=
  match v with
  | .majority m => m.weight? id
  | .hierarchical h => h.weight? id

def containsQuorum (v : Verifier) (acks : List ServerId) : Bool :=
  match v with
  | .majority m => m.containsQuorum acks
  | .hierarchical h => h.containsQuorum acks

/-- Whether two verifiers have the same rule and content. Versions do not matter. -/
def sameContent : Verifier → Verifier → Bool
  | .majority a, .majority b => a.members = b.members
  | .hierarchical a, .hierarchical b =>
    a.members = b.members ∧ a.shares = b.shares ∧ a.groupWeights = b.groupWeights
  | _, _ => false

/-- Whether two verifiers count as the same membership: a version stands for one content, so for
one strategy equal versions are enough. -/
def sameMembership (a b : Verifier) : Bool :=
  a.strategy = b.strategy ∧ (a.version = b.version ∨ a.sameContent b)

/-! ## Text -/

def lines : Verifier → List String
  | .majority m => m.lines
  | .hierarchical h => h.lines

/-- The canonical text, without a line feed at the end. -/
def text (v : Verifier) : String := "\n".intercalate v.lines

/-! ## Connect strings -/

/-- The server that an entry declares, or why it declares none. `none` for an entry of another
kind. -/
def readServer? (key value : String) : Option (Except ConfigError Server) :=
  (MembershipKey.suffix? MembershipKey.server key).map fun suffix => do
    Server.ofText (← Members.readId key suffix) value

/-- The version as written, a space, and the client endpoints of the servers in key order. Entries
that declare no server are left out. -/
def connectString (props : Properties) : String :=
  let clients := props.toList.filterMap fun e => match readServer? e.1 e.2 with
    | some (.ok s) => s.client.map Endpoint.text
    | _ => none
  (props.get? MembershipKey.version).getD "" ++ " " ++ ",".intercalate clients

/-- The server entries that a connect string leaves out, and why. -/
def skippedServers (props : Properties) : List (String × ConfigError) :=
  props.toList.filterMap fun e => match readServer? e.1 e.2 with
    | some (.error err) => some (e.1, err)
    | _ => none

end Verifier

end Ensemble
