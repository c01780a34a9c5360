import Ensemble.Config.Settings
import Ensemble.Membership.Layout
import Ensemble.Membership.State

/-!
# Configurations

What a server knows about itself and its ensemble once its configuration is loaded: the settings,
the endpoints it serves clients at, its id, and the membership in force and the one proposed.
-/

namespace Ensemble

structure Config where
  /-- The context that loading starts from. -/
  base : Context
  settings : Settings := { context := base }
  configFile : Option Path := none
  /-- The dynamic file, found from where the static file is. -/
  dynamicFile : Option Path := none
  client : Option Endpoint := none
  secureClient : Option Endpoint := none
  serverId : Option ServerId := none
  membership : Option Verifier := none
  /-- A membership that is proposed beside the dynamic file. -/
  pending : Option Verifier := none

namespace Config

/-- The configuration before anything is loaded. -/
def unloaded (base : Context) : Config := { base }

def context (c : Config) : Context := c.settings.context

/-- The names of the files around the static file the configuration came from. -/
def layout (c : Config) : Option Layout := c.configFile.map Layout.mk

/-- The members by id. -/
def servers (c : Config) : List Server :=
  match c.membership with
  | some v => v.members.table.values
  | none => []

def state (c : Config) : MembershipState := .ofVerifiers c.membership c.pending

end Config

/-- Whether a membership in a context is served by more than one server. -/
def Verifier.isDistributed (v : Verifier) (context : Context) : Bool :=
  !context.standalone || 1 < v.voting.size

/-- Whether the configuration is that of a server among others. -/
def Config.isDistributed (c : Config) : Bool := c.membership.any fun v => v.isDistributed c.context

end Ensemble
