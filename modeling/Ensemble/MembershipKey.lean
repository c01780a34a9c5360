/-!
# Keys of a membership

A membership is written as entries whose keys start with `server.`, `group.` or `weight.`, and an
entry `version`.
-/

namespace Ensemble.MembershipKey

def server : String := "server."

def group : String := "group."

def weight : String := "weight."

def version : String := "version"

/-- What follows a stem in a key that starts with it. -/
def suffix? (stem key : String) : Option String :=
  if stem.toList.isPrefixOf key.toList then some (String.ofList (key.toList.drop stem.length))
  else none

def startsWith (stem key : String) : Bool := stem.toList.isPrefixOf key.toList

/-- Whether a key declares a member, a group or a weight. -/
def declares (key : String) : Bool :=
  startsWith server key || startsWith group key || startsWith weight key

end Ensemble.MembershipKey
