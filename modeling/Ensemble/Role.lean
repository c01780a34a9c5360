import Ensemble.Text.Blank

/-!
# Roles

Whether a member of the ensemble votes.
-/

namespace Ensemble

inductive Role
  | participant
  | observer
deriving DecidableEq, Repr

namespace Role

def text : Role → String
  | .participant => "participant"
  | .observer => "observer"

def isVoting : Role → Bool
  | .participant => true
  | .observer => false

/-- Reads a role in any case, with or without blanks around it. -/
def ofText? (text : List Char) : Option Role :=
  let word := (Text.trim text).map Char.toLower
  if word = Role.participant.text.toList then some .participant
  else if word = Role.observer.text.toList then some .observer
  else none

end Role

end Ensemble
