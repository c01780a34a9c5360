import Ensemble.Address

/-!
# Endpoints

A host and a port. Hosts stay text and are never looked up.
-/

namespace Ensemble

structure Endpoint where
  host : String
  port : UInt16
deriving DecidableEq, Repr

namespace Endpoint

/-- A host text without the brackets around it, if it has both. -/
def stripBrackets (host : List Char) : List Char :=
  match host with
  | '[' :: rest => if rest.getLast? = some ']' then rest.dropLast else host
  | _ => host

/-- The endpoint of a host, which may stand in brackets. -/
def ofHost (host : List Char) (port : UInt16) : Endpoint :=
  ⟨String.ofList (stripBrackets host), port⟩

/-- The endpoint that listens on every local address. -/
def wildcard (port : UInt16) : Endpoint := ⟨"0.0.0.0", port⟩

def address? (e : Endpoint) : Option Address := Address.ofText? e.host

def family? (e : Endpoint) : Option AddressFamily := e.address?.map Address.family

def isWildcard (e : Endpoint) : Bool := e.host.isEmpty || e.address?.any Address.isUnspecified

/-- Whether an endpoint set up locally agrees with a declared one. One that listens on every address
agrees as soon as the ports do. -/
def agreesWith (e declared : Endpoint) : Bool :=
  if e.isWildcard then e.port == declared.port else e == declared

/-- `host:port`, with brackets around a host that holds a colon. -/
def text (e : Endpoint) : String :=
  let port := Text.decimal e.port.toNat
  if e.host.toList.contains ':' then "[" ++ e.host ++ "]:" ++ port else e.host ++ ":" ++ port

end Endpoint

end Ensemble
