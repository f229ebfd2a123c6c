import DvSpec.Types.Hex
import Mathlib.Algebra.Group.Nat.Defs

/-!
# The cluster definition

A cluster's intended configuration at version v1.10.0, with the conditions its
model checks on construction.
-/

namespace DvSpec.Cluster

/-- A numeric field that fits a signed 64-bit integer and is not negative. -/
abbrev GoInt := { value : Nat // value < 2 ^ 63 }

/-- An amount in Gwei. -/
abbrev Gwei := { value : Nat // value < 2 ^ 64 }

def versionV1x10 : String := "v1.10.0"

/-- The versions that can be hashed. -/
def supportedVersions : List String := [versionV1x10]

/-- Reject a version that is not modelled. -/
def requireSupportedVersion (version : String) : Except PyError Unit :=
  if version ∈ supportedVersions then .ok ()
  else
    let shown := reprStr version
    let supported := ", ".intercalate supportedVersions
    .error (.valueError s!"unsupported cluster version {shown}, this spec models {supported}")

/-! ## Capacities and lengths -/

def maxUuidBytes : Nat := 64

def maxNameBytes : Nat := 256

def maxVersionBytes : Nat := 16

def maxTimestampBytes : Nat := 32

def maxDkgAlgorithmBytes : Nat := 32

def maxEnrBytes : Nat := 1024

/-- List capacity of `operators`, and of a validator's public shares. -/
def maxOperators : Nat := 256

/-- List capacity of `validators`, and of a lock's distributed validators. -/
def maxValidators : Nat := 65536

/-- List capacity of `deposit_amounts`, and of partial deposit data. -/
def maxDepositAmounts : Nat := 256

/-- Length of an Ethereum address, once its hex string is decoded. -/
def addressLength : Nat := 20

def forkVersionLength : Nat := 4

def k1SignatureLength : Nat := 65

def hashLength : Nat := 32

/-! ## The model -/

/-- A charon node in the cluster and the operator that runs it. -/
structure Operator where
  address : String
  enr : String
  configSignature : Bytes
  enrSignature : Bytes
  deriving DecidableEq

/-- The operator that created the definition. -/
structure Creator where
  address : String
  configSignature : Bytes
  deriving DecidableEq

/-- The fee recipient and withdrawal addresses of one validator. -/
structure ValidatorAddresses where
  feeRecipientAddress : String
  withdrawalAddress : String
  deriving DecidableEq

/-- A cluster's intended configuration. -/
structure Definition where
  uuid : String
  name : String
  version : String
  timestamp : String
  numValidators : GoInt
  threshold : GoInt
  dkgAlgorithm : String
  forkVersion : Bytes
  operators : List Operator
  creator : Creator
  validatorAddresses : List ValidatorAddresses
  depositAmounts : List Gwei
  consensusProtocol : String
  targetGasLimit : GoInt
  compounding : Bool
  configHash : Bytes
  definitionHash : Bytes
  version_supported : version ∈ supportedVersions
  numValidators_eq : numValidators.val = validatorAddresses.length
  deriving DecidableEq

/-- Number of nodes in the cluster. -/
def Definition.numOperators (definition : Definition) : Nat := definition.operators.length

end DvSpec.Cluster
