import DvSpec.Types.Duty
import Mathlib.Data.List.Basic

/-!
# Participants of cluster edits

A cluster is edited by its operators, in the order of the cluster lock.  Share indices
are positions in the current lock during the ceremony, and positions among the
remaining operators in the new lock.
-/

namespace DvSpec.Dkg

/-- Build the participant list for a reshare. -/
def reshareParticipants (operatorEnrs : List String) : List String := operatorEnrs

/-- Build the participant list for adding operators. -/
def addOperatorsParticipants (operatorEnrs newEnrs : List String) : List String :=
  operatorEnrs ++ newEnrs

/-- Every ENR must be one of the current operators. -/
def requireOperators (operatorEnrs enrs : List String) (message : String) : Except PyError Unit :=
  forM enrs fun enr => if enr ∉ operatorEnrs then .error (.valueError message) else .ok ()

/-- Build the participant list for removing operators. -/
def removeOperatorsParticipants (operatorEnrs removingEnrs : List String)
    (participatingEnrs : List String := []) : Except PyError (List String) := do
  requireOperators operatorEnrs removingEnrs "removing ENR not found among lock operators"
  if participatingEnrs ≠ [] then
    requireOperators operatorEnrs participatingEnrs
      "participating ENR not found among lock operators"
    return participatingEnrs
  return operatorEnrs.filter fun enr => enr ∉ removingEnrs

/-- Build the participant list for replacing one operator. -/
def replaceOperatorParticipants (operatorEnrs : List String) (oldEnr newEnr : String) :
    Except PyError (List String) :=
  if oldEnr ∉ operatorEnrs then .error (.valueError "old operator not found in lock")
  else .ok (operatorEnrs.set (operatorEnrs.idxOf oldEnr) newEnr)

/-- The 1-based position of an ENR, or the given error. -/
def shareIndex (enrs : List String) (enr message : String) : Except PyError Nat :=
  if enr ∉ enrs then .error (.valueError message) else .ok (enrs.idxOf enr + 1)

/-- Resolve the share index an operator uses during the ceremony. -/
def ceremonyShareIndex (operatorEnrs : List String) (enr : String) : Except PyError Nat :=
  shareIndex operatorEnrs enr "ENR not among the cluster lock operators"

/-- Resolve the share index an operator holds in the new cluster lock. -/
def newLockShareIndex (remainingEnrs : List String) (enr : String) : Except PyError Nat :=
  shareIndex remainingEnrs enr "ENR does not remain in the new cluster lock"

end DvSpec.Dkg
