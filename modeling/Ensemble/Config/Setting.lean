/-!
# Settings

The settings that a static configuration file may carry, by the keys it writes them under. Main
statement: `Setting.ofKey?_key`.
-/

namespace Ensemble

inductive Setting
  | dataDir
  | dataLogDir
  | clientPort
  | clientPortAddress
  | secureClientPort
  | secureClientPortAddress
  | localSessions
  | localSessionUpgrades
  | tickTime
  | maxClientConnections
  | minSessionTimeout
  | maxSessionTimeout
  | initLimit
  | syncLimit
  | electionAlg
  | listenOnAllAddresses
  | peerType
  | syncEnabled
  | dynamicConfigFile
  | snapRetainCount
  | purgeInterval
  | standalone
  | reconfig
  | sslQuorum
  | portUnification
  | saslEnabled
  | saslServerRequired
  | saslLearnerRequired
  | saslLearnerContext
  | saslServerContext
  | saslServicePrincipal
  | connectionThreads
deriving DecidableEq, Repr

namespace Setting

def key : Setting → String
  | dataDir => "dataDir"
  | dataLogDir => "dataLogDir"
  | clientPort => "clientPort"
  | clientPortAddress => "clientPortAddress"
  | secureClientPort => "secureClientPort"
  | secureClientPortAddress => "secureClientPortAddress"
  | localSessions => "localSessionsEnabled"
  | localSessionUpgrades => "localSessionsUpgradingEnabled"
  | tickTime => "tickTime"
  | maxClientConnections => "maxClientCnxns"
  | minSessionTimeout => "minSessionTimeout"
  | maxSessionTimeout => "maxSessionTimeout"
  | initLimit => "initLimit"
  | syncLimit => "syncLimit"
  | electionAlg => "electionAlg"
  | listenOnAllAddresses => "quorumListenOnAllIPs"
  | peerType => "peerType"
  | syncEnabled => "syncEnabled"
  | dynamicConfigFile => "dynamicConfigFile"
  | snapRetainCount => "autopurge.snapRetainCount"
  | purgeInterval => "autopurge.purgeInterval"
  | standalone => "standaloneEnabled"
  | reconfig => "reconfigEnabled"
  | sslQuorum => "sslQuorum"
  | portUnification => "portUnification"
  | saslEnabled => "quorum.auth.enableSasl"
  | saslServerRequired => "quorum.auth.serverRequireSasl"
  | saslLearnerRequired => "quorum.auth.learnerRequireSasl"
  | saslLearnerContext => "quorum.auth.learner.saslLoginContext"
  | saslServerContext => "quorum.auth.server.saslLoginContext"
  | saslServicePrincipal => "quorum.auth.kerberos.servicePrincipal"
  | connectionThreads => "quorum.cnxn.threads.size"

def all : List Setting :=
  [dataDir, dataLogDir, clientPort, clientPortAddress, secureClientPort, secureClientPortAddress,
    localSessions, localSessionUpgrades, tickTime, maxClientConnections, minSessionTimeout,
    maxSessionTimeout, initLimit, syncLimit, electionAlg, listenOnAllAddresses, peerType,
    syncEnabled, dynamicConfigFile, snapRetainCount, purgeInterval, standalone, reconfig, sslQuorum,
    portUnification, saslEnabled, saslServerRequired, saslLearnerRequired, saslLearnerContext,
    saslServerContext, saslServicePrincipal, connectionThreads]

def ofKey? (key : String) : Option Setting := all.find? fun s => s.key == key

theorem ofKey?_key (s : Setting) : ofKey? s.key = some s := by cases s <;> decide

end Setting

end Ensemble
