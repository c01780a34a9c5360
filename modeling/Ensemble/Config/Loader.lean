import Ensemble.Config.Basic
import Ensemble.Quorum.Population

/-!
# Loading a configuration

The static settings are read and checked; the membership comes from them or from the dynamic file
that they name, and is checked against the server's own id and endpoints. A configuration is given
only if every check passes, and replaces an earlier one only then (`Config.reload`).
-/

namespace Ensemble

/-! ## Static settings -/

/-- The server side can require only what the learner side requires, and that only where it is
enabled. -/
def Auth.check (a : Auth) : Except ConfigError Unit := do
  if !a.enabled && a.serverRequired then throw (.authDependency .saslEnabled .saslServerRequired)
  if !a.enabled && a.learnerRequired then throw (.authDependency .saslEnabled .saslLearnerRequired)
  if !a.learnerRequired && a.serverRequired then
    throw (.authDependency .saslLearnerRequired .saslServerRequired)

namespace Listen

/-- The endpoint, where both the port and the address are set. -/
def explicit? (l : Listen) : Option Endpoint := do
  return Endpoint.ofHost (← l.address).toList (← l.port)

/-- The endpoint: without an address every address is meant. An address without a port is
refused. -/
def endpoint? (l : Listen) (address port : Setting) : Except ConfigError (Option Endpoint) :=
  match l.port, l.address with
  | none, some _ => throw (.addressWithoutPort address port)
  | none, none => pure none
  | some n, _ => pure (some (l.explicit?.getD (Endpoint.wildcard n)))

end Listen

/-- Refuses two endpoints with numeric addresses of different kinds. -/
def checkFamilies (a b : Endpoint) : Except ConfigError Unit :=
  match a.family?, b.family? with
  | some f, some g => if f ≠ g then throw (.addressFamilyMismatch a b) else pure ()
  | _, _ => pure ()

namespace Settings

/-- Raises the number of snapshots to keep to the floor. -/
def raiseSnapRetainCount (s : Settings) : Reported Settings := do
  if s.snapRetainCount < snapRetainFloor then
    Reported.notify [.snapRetainFloor s.snapRetainCount snapRetainFloor]
    return { s with snapRetainCount := snapRetainFloor }
  else return s

/-- The log goes where the data goes, unless set. -/
def placeLog (s : Settings) : Except ConfigError Settings :=
  match s.dataDir with
  | some dir => pure { s with dataLogDir := s.dataLogDir.or (some dir) }
  | none => throw (.missingSetting Setting.dataDir.key)

def checkTimes (s : Settings) : Except ConfigError Unit := do
  if s.tickTime = 0 then throw (.missingSetting Setting.tickTime.key)
  if s.maxTimeout < s.minTimeout then throw (.sessionTimeoutRange s.minTimeout s.maxTimeout)

end Settings

namespace Config

/-- The dynamic file seen from the directory of the static file. -/
def locateDynamicFile (configFile : Option Path) (p : Path) : Path :=
  match configFile with
  | some file => Path.resolveFrom file.directory p
  | none => p

/-- The configuration without a membership. -/
def ofStatic (base : Context) (configFile : Option Path) (props : Properties) :
    Reported Config := do
  let s ← Settings.ofProperties base props
  s.auth.check
  let s ← s.raiseSnapRetainCount
  let s ← s.placeLog
  let client ← s.client.endpoint? .clientPortAddress .clientPort
  let secureClient ← s.secureClient.endpoint? .secureClientPortAddress .secureClientPort
  if let (some a, some b) := (s.client.explicit?, s.secureClient.explicit?) then checkFamilies a b
  s.checkTimes
  let dynamicFile := s.dynamicFile.map (locateDynamicFile configFile)
  return { base, settings := s, configFile, dynamicFile, client, secureClient }

/-! ## Membership -/

/-- The first line of the `myid` file in the data directory, as an id. -/
def readServerId (dataDir : Path) : Action (Option ServerId) := do
  let file := dataDir.join ⟨"myid"⟩
  if !(← Script.perform (.isFile file)) then return none
  else
    let text ← Action.onFile file (readText file)
    let line := String.ofList (Text.trim ((Text.lines text.toList).headD []))
    match Text.uint64? line with
    | some id => return some id
    | none => throw (.invalidValue "myid" line .serverIdNotNumber)

/-- Takes the client endpoint that the membership declares for this server. One that is set has to
agree with it. -/
def takeDeclaredClient (c : Config) : Except ConfigError Config := do
  let declared? : Option (ServerId × Endpoint) := do
    let id ← c.serverId
    let server ← (← c.membership).members.table.get? id
    return (id, ← server.client)
  match declared? with
  | none => return c
  | some (id, declared) =>
    if let some configured := c.client then
      if !configured.agreesWith declared then
        throw (.clientEndpointConflict id configured declared)
    return { c with client := some declared }

/-- The role that the membership lists for this server; a participant where it lists none. -/
def listedRole (c : Config) : Role :=
  match c.serverId, c.membership with
  | some id, some v => if v.observing.contains id then .observer else .participant
  | _, _ => .participant

/-- Takes the role that the membership lists, whatever is set. -/
def takeListedRole (c : Config) : Reported Config := do
  if c.listedRole ≠ c.settings.peerType then
    Reported.notify [.peerTypeMismatch c.listedRole c.settings.peerType]
  return { c with settings.peerType := c.listedRole }

/-- A server among others needs limits and an id. -/
def checkDistributed (c : Config) : Except ConfigError Unit := do
  if c.isDistributed then
    if c.settings.initLimit = 0 then throw (.missingSetting Setting.initLimit.key)
    if c.settings.syncLimit = 0 then throw (.missingSetting Setting.syncLimit.key)
    if c.serverId.isNone then throw (.missingSetting "myid")

/-- Settles what the membership and the id decide. -/
def settle (c : Config) : Reported Config := do
  let c ← c.takeDeclaredClient
  let c ← c.takeListedRole
  c.checkDistributed
  return c

/-- Reads the membership and the id of this server. Unless `lenient`, no other entries may stand
beside those of the membership. -/
def adopt (c : Config) (props : Properties) (lenient : Bool) : Action Config := do
  let v ← Action.ofReported
    (readMembership props c.settings.electionAlg true lenient c.context)
  let serverId ← match c.settings.dataDir with
    | some dir => readServerId dir
    | none => pure none
  Action.ofReported (settle { c with membership := some v, serverId })

/-- The membership that is proposed in a file. A file that is missing or cannot be read proposes
none. -/
def readPending (file : Path) : Action (Option Verifier) := do
  if !(← isPresent file) then return none
  else
    match ← ExceptT.lift (readText file).run with
    | .ok text => return some (← Action.ofExcept (Verifier.ofText text))
    | .error e =>
      Script.notify [.nextUnreadable file e]
      return none

/-- Reads the membership from a dynamic file, the name of which states the version, and the one
proposed beside it. -/
def adoptFile (c : Config) (file : Path) : Action Config := do
  let file ← PathCheck.strict.verify file
  let props ← Properties.ofFile file
  if props.contains MembershipKey.version then throw (.versionInDynamicFile file)
  let props := match file.version? with
    | some v => props.insert MembershipKey.version (Text.hex v.toNat)
    | none => props
  let c ← c.adopt props false
  return { c with pending := ← readPending file.nextFile }

/-! ## Loading -/

/-- Loads a configuration from its entries. -/
def load (base : Context) (configFile : Option Path) (props : Properties) : Action Config := do
  let c ← Action.ofReported (ofStatic base configFile props)
  match c.dynamicFile with
  | some file => c.adoptFile file
  | none => c.adopt props true

/-- Loads a configuration that came from no file. -/
def ofProperties (base : Context) (props : Properties) : Action Config := load base none props

/-- Loads the configuration of a static file. -/
def ofFile (base : Context) (file : Path) : Action Config := do
  let file ← PathCheck.strict.verify file
  let props ← Properties.ofFile file
  load base (some file) props

/-! ## Loading again -/

/-- What a configuration is loaded from. -/
inductive Source
  | file (p : Path)
  | properties (props : Properties)

def ofSource (base : Context) : Source → Action Config
  | .file p => ofFile base p
  | .properties props => ofProperties base props

/-- Loads anew, in the context that the configuration starts from. What is refused leaves the
configuration as it was. -/
def reload (c : Config) (source : Source) : Script (Except ConfigError Unit × Config) := do
  match ← (ofSource c.base source).run with
  | .ok c' => return (.ok (), c')
  | .error e => return (.error e, c)

end Config

end Ensemble
