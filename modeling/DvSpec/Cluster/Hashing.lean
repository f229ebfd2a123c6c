import DvSpec.Cluster.Lock
import DvSpec.Encoding.HashWalker
import DvSpec.Encoding.Proto

/-!
# Config, definition and lock hashes

The three hashes differ only in which fields the walk visits: the config hash
skips the operator ENRs, every signature and the stored config hash; the lock
hash covers the definition hash's fields and the distributed validators.
-/

namespace DvSpec.Cluster

open DvSpec.Encoding

/-- Decode a hex Ethereum address to bytes; an empty string decodes to no bytes. -/
def decodeAddress (address : String) : Except PyError Bytes :=
  if address = "" then .ok []
  else
    let shown := reprStr address
    match decodeHexBytes address with
    | .error (.valueError reason) =>
        .error (.valueError s!"invalid address {shown}: {reason}")
    | .error raised => .error raised
    | .ok raw =>
        let length := raw.length
        if length ≠ addressLength then
          .error (.valueError
            s!"address {shown} decodes to {length} bytes, expected {addressLength}")
        else .ok raw

variable (sha256 : Bytes → Bytes)

/-- Append a hex Ethereum address as SSZ `Bytes20`. -/
def putAddress (walker : HashWalker) (address field : String) : Except PyError HashWalker := do
  let raw ← decodeAddress address
  putBytesN sha256 walker raw addressLength field

/-- One pass of the loop over the operators. -/
def putOperator (configOnly : Bool) (walker : HashWalker) (operator : Operator) :
    Except PyError HashWalker := do
  let operatorStart := walker.index
  let walker ← putAddress sha256 walker operator.address "operator address"
  let walker ←
    (if configOnly then .ok walker
    else do
      let walker ← putByteList sha256 walker (utf8 operator.enr) maxEnrBytes "enr"
      let walker ←
        putBytesN sha256 walker operator.configSignature k1SignatureLength "config_signature"
      putBytesN sha256 walker operator.enrSignature k1SignatureLength "enr_signature")
  walker.merkleize sha256 operatorStart

/-- One pass of the loop over the validator addresses. -/
def putValidatorAddresses (walker : HashWalker) (addresses : ValidatorAddresses) :
    Except PyError HashWalker := do
  let addressStart := walker.index
  let walker ← putAddress sha256 walker addresses.feeRecipientAddress "fee_recipient_address"
  let walker ← putAddress sha256 walker addresses.withdrawalAddress "withdrawal_address"
  walker.merkleize sha256 addressStart

/-- Walk a v1.10.0 definition, leaving its hash root as one chunk. -/
def hashDefinitionV1x10 (walker : HashWalker) (definition : Definition) (configOnly : Bool) :
    Except PyError HashWalker := do
  let start := walker.index
  let walker ← putByteList sha256 walker (utf8 definition.uuid) maxUuidBytes "uuid"
  let walker ← putByteList sha256 walker (utf8 definition.name) maxNameBytes "name"
  let walker ← putByteList sha256 walker (utf8 definition.version) maxVersionBytes "version"
  let walker ← putByteList sha256 walker (utf8 definition.timestamp) maxTimestampBytes "timestamp"
  let walker ← walker.putUint64 definition.numValidators.val
  let walker ← walker.putUint64 definition.threshold.val
  let walker ←
    putByteList sha256 walker (utf8 definition.dkgAlgorithm) maxDkgAlgorithmBytes "dkg_algorithm"
  let walker ← putBytesN sha256 walker definition.forkVersion forkVersionLength "fork_version"
  let operatorsStart := walker.index
  let walker ← definition.operators.foldlM (putOperator sha256 configOnly) walker
  let walker ←
    walker.merkleizeWithMixin sha256 operatorsStart definition.operators.length maxOperators
  let creatorStart := walker.index
  let walker ← putAddress sha256 walker definition.creator.address "creator address"
  let walker ←
    (if configOnly then .ok walker
    else
      putBytesN sha256 walker definition.creator.configSignature k1SignatureLength
        "creator config_signature")
  let walker ← walker.merkleize sha256 creatorStart
  let addressesStart := walker.index
  let walker ← definition.validatorAddresses.foldlM (putValidatorAddresses sha256) walker
  let walker ←
    walker.merkleizeWithMixin sha256 addressesStart definition.validatorAddresses.length
      maxValidators
  let walker ←
    walker.putUint64Array sha256 (definition.depositAmounts.map fun amount => (amount.val : Int))
      maxDepositAmounts
  let walker ←
    putByteList sha256 walker (utf8 definition.consensusProtocol) maxNameBytes "consensus_protocol"
  let walker ← walker.putUint64 definition.targetGasLimit.val
  let walker := walker.putBool definition.compounding
  let walker ←
    (if configOnly then .ok walker
    else putBytesN sha256 walker definition.configHash hashLength "config_hash")
  walker.merkleize sha256 start

/-- Walk deposit data, leaving its hash root as one chunk. -/
def hashDepositData (walker : HashWalker) (deposit : DepositData) : Except PyError HashWalker := do
  let start := walker.index
  let walker ← putBytesN sha256 walker deposit.pubkey pubkeyLength "deposit pubkey"
  let walker ←
    putBytesN sha256 walker deposit.withdrawalCredentials withdrawalCredentialsLength
      "withdrawal_credentials"
  let walker ← walker.putUint64 deposit.amount.val
  let walker ← putBytesN sha256 walker deposit.signature blsSignatureLength "deposit signature"
  walker.merkleize sha256 start

/-- Walk a builder registration message; a short fee recipient is right-padded and
no length is required of it. -/
def hashRegistration (walker : HashWalker) (registration : Registration) :
    Except PyError HashWalker := do
  let start := walker.index
  let walker ← walker.putBytes sha256 registration.feeRecipient
  let walker ← walker.putUint64 registration.gasLimit.val
  let walker ← walker.putUint64 registration.timestamp.val
  let walker ← putBytesN sha256 walker registration.pubkey pubkeyLength "registration pubkey"
  walker.merkleize sha256 start

/-- Walk a signed builder registration, leaving its hash root as one chunk. -/
def hashBuilderRegistration (walker : HashWalker) (registration : BuilderRegistration) :
    Except PyError HashWalker := do
  let start := walker.index
  let walker ← hashRegistration sha256 walker registration.message
  let walker ←
    putBytesN sha256 walker registration.signature blsSignatureLength "registration signature"
  walker.merkleize sha256 start

/-- One pass of the loop over the partial deposits: the deposit's root is closed once more. -/
def putPartialDeposit (walker : HashWalker) (deposit : DepositData) :
    Except PyError HashWalker := do
  let depositStart := walker.index
  let walker ← hashDepositData sha256 walker deposit
  walker.merkleize sha256 depositStart

/-- Walk a distributed validator, leaving its hash root as one chunk. -/
def hashValidatorV1x8OrLater (walker : HashWalker) (validator : DistValidator) :
    Except PyError HashWalker := do
  let start := walker.index
  let walker ← putBytesN sha256 walker validator.pubkey pubkeyLength "validator pubkey"
  let sharesStart := walker.index
  let walker ←
    validator.pubshares.foldlM
      (fun walker pubshare => putBytesN sha256 walker pubshare pubkeyLength "pubshare") walker
  let walker ←
    walker.merkleizeWithMixin sha256 sharesStart validator.pubshares.length maxOperators
  let depositsStart := walker.index
  let walker ← validator.partialDepositData.foldlM (putPartialDeposit sha256) walker
  let walker ←
    walker.merkleizeWithMixin sha256 depositsStart validator.partialDepositData.length
      maxDepositAmounts
  let walker ← hashBuilderRegistration sha256 walker validator.builderRegistration
  walker.merkleize sha256 start

/-- Walk a lock, leaving its hash root as one chunk. -/
def hashLockV1x3OrLater (walker : HashWalker) (lock : Lock) : Except PyError HashWalker := do
  let start := walker.index
  let walker ← hashDefinitionV1x10 sha256 walker lock.definition false
  let validatorsStart := walker.index
  let walker ← lock.validators.foldlM (hashValidatorV1x8OrLater sha256) walker
  let walker ←
    walker.merkleizeWithMixin sha256 validatorsStart lock.validators.length maxValidators
  walker.merkleize sha256 start

/-- The config hash of a definition: operator ENRs and signatures are left out. -/
def configHash (definition : Definition) : Except PyError Bytes := do
  requireSupportedVersion definition.version
  let walker ← hashDefinitionV1x10 sha256 HashWalker.new definition true
  walker.hashRoot

/-- The definition hash, covering every field including the config hash. -/
def definitionHash (definition : Definition) : Except PyError Bytes := do
  requireSupportedVersion definition.version
  let walker ← hashDefinitionV1x10 sha256 HashWalker.new definition false
  walker.hashRoot

/-- The lock hash, covering the definition and the validators. -/
def lockHash (lock : Lock) : Except PyError Bytes := do
  requireSupportedVersion lock.version
  let walker ← hashLockV1x3OrLater sha256 HashWalker.new lock
  walker.hashRoot

end DvSpec.Cluster
