import Mathlib.Data.List.Basic

/-!
# Byte strings, raised exceptions and duties

`bytes` values are lists of octets.  A function that may raise returns an
`Except`, whose error side names the exception class and, where the source
supplies one, its message.
-/

namespace DvSpec

abbrev Bytes := List UInt8

/-- The exceptions the modelled functions raise.  A validation error lists the
rejected fields in declaration order, each with its message. -/
inductive PyError where
  | valueError (message : String)
  | indexError
  | attributeError
  | zeroDivisionError
  | overflowError
  | validationError (errors : List (String × String))
  deriving DecidableEq, Repr

/-- Types of duties a validator can have. -/
inductive DutyType where
  | unknown
  | proposer
  | attester
  | signature
  | exit
  | builderProposer
  | builderRegistration
  | randao
  | prepareAggregator
  | aggregator
  | syncMessage
  | prepareSyncContribution
  | syncContribution
  | infoSync
  deriving DecidableEq, Repr

/-- The integer value of the enumeration. -/
def DutyType.toNat : DutyType → Nat
  | .unknown => 0
  | .proposer => 1
  | .attester => 2
  | .signature => 3
  | .exit => 4
  | .builderProposer => 5
  | .builderRegistration => 6
  | .randao => 7
  | .prepareAggregator => 8
  | .aggregator => 9
  | .syncMessage => 10
  | .prepareSyncContribution => 11
  | .syncContribution => 12
  | .infoSync => 13

/-- A duty assigned to a validator. -/
structure Duty where
  slot : Nat
  type : DutyType
  deriving DecidableEq, Repr

end DvSpec
