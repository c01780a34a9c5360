import Ensemble.Endpoint.Reader
import Ensemble.MembershipKey
import Ensemble.Role

/-!
# Servers

A member of the ensemble: where it takes part in elections, where it serves clients, and whether it
votes. Its text is `host:electionPort:clientHost:clientPort:role`, from the end of which parts may
be missing.
-/

namespace Ensemble

structure Server where
  id : ServerId
  election : Option Endpoint
  client : Option Endpoint
  role : Role
deriving DecidableEq, Repr

namespace Server

open Text

/-- The key of the entry that declares a server. -/
def key (id : ServerId) : String := MembershipKey.server ++ decimal id.toNat

def isParticipant (s : Server) : Bool := s.role.isVoting

/-- The value of the entry that declares the server. -/
def text (s : Server) : String :=
  match s.election, s.client with
  | some e, some c => e.text ++ ":" ++ c.text ++ ":" ++ s.role.text
  | some e, none => e.text ++ ":" ++ s.role.text
  | none, some c => "::" ++ c.text ++ ":" ++ s.role.text
  | none, none => s.role.text

/-- The endpoint of a host token and a port token; two empty tokens declare none. -/
def endpoint? (host port : List Char) : Except Flaw (Option Endpoint) :=
  if host = [] ∧ port = [] then pure none
  else match Endpoint.port? port with
    | some n => pure (some (Endpoint.ofHost (trim host) n))
    | none => throw .portNotNumber

/-- Takes the role off the end of the tokens. Without one the server is a participant, but a last
token of letters alone must be a role. -/
def takeRole (tokens : List (List Char)) : Except Flaw (List (List Char) × Role) :=
  match tokens.getLast? with
  | none => pure (tokens, .participant)
  | some last => match Role.ofText? last with
    | some role => pure (tokens.dropLast, role)
    | none =>
      if last ≠ [] ∧ last.all Char.isAlpha then throw .unknownRole
      else pure (tokens, .participant)

/-- The election endpoint and the client endpoint. -/
def endpoints (tokens : List (List Char)) :
    Except Flaw (Option Endpoint × Option Endpoint) := do
  match tokens with
  | [] => return (none, none)
  | [[]] => return (none, none)
  | [host, port] => return (← endpoint? host port, none)
  | [host, port, clientHost, clientPort] =>
    return (← endpoint? host port, ← endpoint? clientHost clientPort)
  | _ => throw .notServerEntry

/-- Reads the value of the entry that declares server `id`. -/
def ofText (id : ServerId) (text : String) : Except ConfigError Server := do
  let tokens ← Endpoint.splitHostAndPort (String.ofList (trim text.toList))
  let read : Except Flaw Server := do
    let (tokens, role) ← takeRole tokens
    let (election, client) ← endpoints tokens
    return ⟨id, election, client, role⟩
  read.mapError (.invalidValue (key id) text)

end Server

end Ensemble
