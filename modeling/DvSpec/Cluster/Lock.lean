import DvSpec.Cluster.Definition

/-!
# The cluster lock

The definition together with the distributed validators the key generation
produced: for each a group public key and one public share per node.
-/

namespace DvSpec.Cluster

def pubkeyLength : Nat := 48

def blsSignatureLength : Nat := 96

def withdrawalCredentialsLength : Nat := 32

/-- A signed deposit of one amount towards a validator. -/
@[ext]
structure DepositData where
  pubkey : Bytes
  withdrawalCredentials : Bytes
  amount : Gwei
  signature : Bytes
  deriving DecidableEq

/-- An unsigned builder registration message. -/
@[ext]
structure Registration where
  feeRecipient : Bytes
  gasLimit : GoInt
  timestamp : GoInt
  pubkey : Bytes
  deriving DecidableEq

/-- A builder registration signed by the group key. -/
@[ext]
structure BuilderRegistration where
  message : Registration
  signature : Bytes
  deriving DecidableEq

/-- One distributed validator. -/
@[ext]
structure DistValidator where
  pubkey : Bytes
  pubshares : List Bytes
  partialDepositData : List DepositData
  builderRegistration : BuilderRegistration
  deriving DecidableEq

/-- A cluster lock. -/
structure Lock where
  definition : Definition
  validators : List DistValidator
  lockHash : Bytes
  signatureAggregate : Bytes
  nodeSignatures : List Bytes
  deriving DecidableEq

/-- The definition's version, which also selects the lock hash function. -/
def Lock.version (lock : Lock) : String := lock.definition.version

/-- The definition's signing threshold. -/
def Lock.threshold (lock : Lock) : Nat := lock.definition.threshold.val

end DvSpec.Cluster
