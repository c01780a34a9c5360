import Ensemble.Config.Context
import Ensemble.Config.Setting
import Ensemble.MembershipKey
import Ensemble.Properties.Basic
import Ensemble.Script.File

/-!
# Reading static settings

The entries of a static configuration are taken in key order, each with its own reading and its own
error. Entries of a membership are left to others, and entries that mean nothing here pass through.
-/

namespace Ensemble

/-- How members show each other who they are. -/
structure Auth where
  enabled : Bool := false
  serverRequired : Bool := false
  learnerRequired : Bool := false
  learnerContext : String := "QuorumLearner"
  serverContext : String := "QuorumServer"
  servicePrincipal : String := "quorum/localhost"
deriving DecidableEq, Repr

/-- Where clients are listened to, as far as settings say. -/
structure Listen where
  port : Option UInt16 := none
  address : Option String := none
deriving DecidableEq, Repr

/-- The least number of snapshots to keep. -/
def snapRetainFloor : UInt32 := 3

structure Settings where
  context : Context
  dataDir : Option Path := none
  dataLogDir : Option Path := none
  client : Listen := {}
  secureClient : Listen := {}
  localSessions : Bool := false
  localSessionUpgrades : Bool := false
  /-- Milliseconds in a tick. -/
  tickTime : UInt32 := 3000
  maxClientConnections : UInt32 := 60
  /-- Milliseconds, where set. -/
  minSessionTimeout : Option UInt32 := none
  /-- Milliseconds, where set. -/
  maxSessionTimeout : Option UInt32 := none
  /-- Ticks. -/
  initLimit : UInt32 := 0
  /-- Ticks. -/
  syncLimit : UInt32 := 0
  electionAlg : UInt32 := 3
  listenOnAllAddresses : Bool := false
  peerType : Role := .participant
  syncEnabled : Bool := true
  /-- The dynamic file, as written. -/
  dynamicFile : Option Path := none
  snapRetainCount : UInt32 := snapRetainFloor
  purgeInterval : UInt32 := 0
  sslQuorum : Bool := false
  portUnification : Bool := false
  auth : Auth := {}
  connectionThreads : Option UInt32 := none
  /-- Entries that are not interpreted. -/
  passthrough : Table String String := .empty
deriving DecidableEq

/-! ## Values -/

def lowerCase (value : String) : List Char := value.toList.map Char.toLower

/-- Whether a value is `true`, in any case. -/
def readFlag (value : String) : Bool := lowerCase value == "true".toList

/-- Reads `true` or `false`, in any case. -/
def readStrictFlag (key value : String) : Except ConfigError Bool :=
  if lowerCase value = "true".toList then pure true
  else if lowerCase value = "false".toList then pure false
  else throw (.invalidValue key value .notFlag)

def readNumber (key value : String) : Except ConfigError UInt32 :=
  match Text.uint32? value with
  | some n => pure n
  | none => throw (.invalidValue key value .notNatural)

/-- Reads a port; 0 stands for none. -/
def readPort (key value : String) : Except ConfigError (Option UInt16) :=
  match Text.uint16? value with
  | some n => pure (if n = 0 then none else some n)
  | none => throw (.invalidValue key value .notPort)

def readRole (key value : String) : Except ConfigError Role :=
  match Role.ofText? value.toList with
  | some role => pure role
  | none => throw (.invalidValue key value .notRole)

/-- Reads a directory; the empty text stands for none. -/
def readDirectory (value : String) : Reported (Option Path) := do
  if value.isEmpty then return none
  else
    Reported.notify (PathCheck.warned.notices (.ofText value))
    return some (.ofText value)

/-! ## Entries -/

namespace Settings

/-- Takes the value of a setting. -/
def set (s : Settings) (setting : Setting) (value : String) : Reported Settings := do
  let key := setting.key
  match setting with
  | .dataDir => return { s with dataDir := ← readDirectory value }
  | .dataLogDir => return { s with dataLogDir := ← readDirectory value }
  | .clientPort => return { s with client.port := ← readPort key value }
  | .clientPortAddress => return { s with client.address := some value }
  | .secureClientPort => return { s with secureClient.port := ← readPort key value }
  | .secureClientPortAddress => return { s with secureClient.address := some value }
  | .localSessions => return { s with localSessions := readFlag value }
  | .localSessionUpgrades => return { s with localSessionUpgrades := readFlag value }
  | .tickTime => return { s with tickTime := ← readNumber key value }
  | .maxClientConnections => return { s with maxClientConnections := ← readNumber key value }
  | .minSessionTimeout => return { s with minSessionTimeout := some (← readNumber key value) }
  | .maxSessionTimeout => return { s with maxSessionTimeout := some (← readNumber key value) }
  | .initLimit => return { s with initLimit := ← readNumber key value }
  | .syncLimit => return { s with syncLimit := ← readNumber key value }
  | .electionAlg => return { s with electionAlg := ← readNumber key value }
  | .listenOnAllAddresses => return { s with listenOnAllAddresses := readFlag value }
  | .peerType => return { s with peerType := ← readRole key value }
  | .syncEnabled => return { s with syncEnabled := readFlag value }
  | .dynamicConfigFile => return { s with dynamicFile := some (.ofText value) }
  | .snapRetainCount => return { s with snapRetainCount := ← readNumber key value }
  | .purgeInterval => return { s with purgeInterval := ← readNumber key value }
  | .standalone => return { s with context.standalone := ← readStrictFlag key value }
  | .reconfig => return { s with context.reconfig := ← readStrictFlag key value }
  | .sslQuorum => return { s with sslQuorum := readFlag value }
  | .portUnification => return { s with portUnification := readFlag value }
  | .saslEnabled => return { s with auth.enabled := readFlag value }
  | .saslServerRequired => return { s with auth.serverRequired := readFlag value }
  | .saslLearnerRequired => return { s with auth.learnerRequired := readFlag value }
  | .saslLearnerContext => return { s with auth.learnerContext := value }
  | .saslServerContext => return { s with auth.serverContext := value }
  | .saslServicePrincipal => return { s with auth.servicePrincipal := value }
  | .connectionThreads => return { s with connectionThreads := some (← readNumber key value) }

/-- Takes an entry. Beside a dynamic file no entry of a membership is accepted. -/
def enter (s : Settings) (hasDynamicFile : Bool) (key value : String) : Reported Settings :=
  match Setting.ofKey? key with
  | some setting => s.set setting value
  | none =>
    if MembershipKey.declares key then
      if hasDynamicFile then Reported.refuse (.membershipInStaticFile key) else pure s
    else if key = MembershipKey.version then pure s
    else pure { s with passthrough := s.passthrough.insert key value }

/-- Takes all entries in key order. -/
def ofProperties (context : Context) (props : Properties) : Reported Settings :=
  let hasDynamicFile := props.contains Setting.dynamicConfigFile.key
  props.toList.foldlM (fun s e => s.enter hasDynamicFile e.1 e.2) { context }

/-! ## Questions -/

/-- The product, or the largest word where that is larger. -/
def mulSaturating (a b : UInt32) : UInt32 :=
  UInt32.ofNat (min (a.toNat * b.toNat) (UInt32.size - 1))

/-- The least session timeout, two ticks unless set. -/
def minTimeout (s : Settings) : UInt32 := s.minSessionTimeout.getD (mulSaturating s.tickTime 2)

/-- The largest session timeout, twenty ticks unless set. -/
def maxTimeout (s : Settings) : UInt32 := s.maxSessionTimeout.getD (mulSaturating s.tickTime 20)

end Settings

end Ensemble
