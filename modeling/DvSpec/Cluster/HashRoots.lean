import DvSpec.Cluster.Hashing
import DvSpec.Crypto.Sha256
import DvSpec.Encoding.Walk

/-!
# The cluster hashes are roots of SSZ values

Every walk of a cluster file appends the root of one value, and raises exactly
when a field exceeds its capacity or an address is none.  The hash functions
therefore return the root of the whole value or one of these errors.
-/

namespace DvSpec.Cluster

open DvSpec.Encoding DvSpec.Library.Raising
open DvSpec.Encoding.HashWalker (bytesValues holding_nil putBytes_holding)

/-- The messages of addresses that are refused. -/
inductive AddressError : String → Prop where
  | invalid (shown reason : String) : AddressError s!"invalid address {shown}: {reason}"
  | length (shown : String) (length : Nat) :
      AddressError s!"address {shown} decodes to {length} bytes, expected {addressLength}"

/-- A `ValueError` for a capacity or an address. -/
def HashRefusal : PyError → Prop :=
  ValueErrorIn fun message => CapacityError message ∨ AddressError message

theorem HashRefusal.of_capacity (raised : PyError) (capacity : ValueErrorIn CapacityError raised) :
    HashRefusal raised := by
  obtain ⟨message, equal, named⟩ := capacity
  exact ⟨message, equal, Or.inl named⟩

theorem HashRefusal.of_address (raised : PyError) (address : ValueErrorIn AddressError raised) :
    HashRefusal raised := by
  obtain ⟨message, equal, named⟩ := address
  exact ⟨message, equal, Or.inr named⟩

/-! ## Addresses -/

/-- The hex digits of an address. -/
def addressText (address : String) : List Char := removeHexPrefix address.toList

/-- An address is empty or 20 bytes of hex digits. -/
def AddressFits (address : String) : Prop :=
  address = "" ∨ (HexText (addressText address) ∧ (hexBytes (addressText address)).length = 20)

/-- The bytes of an address. -/
def addressBytes (address : String) : Bytes :=
  if address = "" then [] else hexBytes (addressText address)

theorem decodeAddress_yields (address : String) :
    Yields (ValueErrorIn AddressError) (decodeAddress address) (AddressFits address)
      (addressBytes address) := by
  have decoded := decodeHexBytes_yields address
  unfold decodeAddress addressBytes
  by_cases empty : address = ""
  · rw [if_pos empty, if_pos empty]
    exact (Yields.of_ok []).congr (by simp [AddressFits, empty])
  · rw [if_neg empty, if_neg empty]
    by_cases digits : HexText (addressText address)
    · rw [decoded.returns digits]
      by_cases width : (hexBytes (addressText address)).length = 20
      · refine ⟨fun _ => if_neg (not_not_intro width), fun refused => ?_⟩
        exact absurd (Or.inr ⟨digits, width⟩) refused
      · refine ⟨fun fits => ?_, fun _ => ⟨_, if_pos width, _, rfl, .length _ _⟩⟩
        rcases fits with none | ⟨-, wide⟩
        · exact absurd none empty
        · exact absurd wide width
    · obtain ⟨_, equal, reason, rfl⟩ := decoded.raises digits
      rw [equal]
      refine ⟨fun fits => ?_, fun _ => ⟨_, rfl, _, rfl, .invalid _ _⟩⟩
      rcases fits with none | ⟨hex, -⟩
      · exact absurd none empty
      · exact absurd hex digits

theorem length_addressBytes {address : String} (fits : AddressFits address) :
    (addressBytes address).length ≤ addressLength := by
  unfold addressBytes
  split
  · exact Nat.zero_le _
  · rename_i some_text
    rcases fits with none | ⟨-, width⟩
    · exact absurd none some_text
    · exact Nat.le_of_eq width

/-! ## Fields -/

section Fields

variable {sha256 : Bytes → Bytes}

theorem putByteList_appends (digest : ∀ data, (sha256 data).length = 32) (data : Bytes)
    (maxBytes : Nat) (field : String) (positive : 0 < maxBytes) (bound : maxBytes < 2 ^ 64) :
    Appends sha256 HashRefusal (fun walker => putByteList sha256 walker data maxBytes field)
      (data.length ≤ maxBytes) [byteListValue maxBytes data] :=
  fun done => (putByteList_yields digest done data positive bound field).mono
    HashRefusal.of_capacity

theorem putBytesN_appends (data : Bytes) (size : Nat) (field : String) (positive : 0 < size)
    (bound : size < 2 ^ 63) :
    Appends sha256 HashRefusal (fun walker => putBytesN sha256 walker data size field)
      (data.length ≤ size) [bytesNValue size data] :=
  fun done => (putBytesN_yields done data positive bound field).mono HashRefusal.of_capacity

theorem putUint64_appends {value : Nat} (small : value < 2 ^ 64) :
    Appends sha256 HashRefusal (fun walker => walker.putUint64 value) True [uint64Value value] :=
  fun done => Yields.of_eq_ok (putUint64_holding done small)

theorem goInt_appends (value : GoInt) :
    Appends sha256 HashRefusal (fun walker => walker.putUint64 value.val) True
      [uint64Value value.val] :=
  putUint64_appends (Nat.lt_trans value.property (by decide))

/-- An address as a value. -/
def addressValue (address : String) : SszValue := bytesNValue addressLength (addressBytes address)

theorem putAddress_appends (address field : String) :
    Appends sha256 HashRefusal (fun walker => putAddress sha256 walker address field)
      (AddressFits address) [addressValue address] := by
  intro done
  have decoded := (decodeAddress_yields address).mono HashRefusal.of_address
  have put := @putBytesN_appends sha256 (addressBytes address) addressLength field (by decide)
    (by decide)
  refine (decoded.bind (put done)).congr ⟨And.left, fun fits => ⟨fits, ?_⟩⟩
  exact length_addressBytes fits

end Fields

/-! ## Definitions -/

section Definitions

variable {sha256 : Bytes → Bytes} (digest : ∀ data, (sha256 data).length = 32)

def operatorValue (configOnly : Bool) (operator : Operator) : SszValue :=
  .container ([addressValue operator.address] ++
    if configOnly then []
    else [byteListValue maxEnrBytes (utf8 operator.enr),
      bytesNValue k1SignatureLength operator.configSignature,
      bytesNValue k1SignatureLength operator.enrSignature])

/-- The fields of an operator that are visited are within their capacities. -/
structure OperatorFits (configOnly : Bool) (operator : Operator) : Prop where
  address : AddressFits operator.address
  enr : configOnly = false → (utf8 operator.enr).length ≤ maxEnrBytes
  configSignature : configOnly = false → operator.configSignature.length ≤ k1SignatureLength
  enrSignature : configOnly = false → operator.enrSignature.length ≤ k1SignatureLength

include digest in
theorem putOperator_appends (configOnly : Bool) (operator : Operator) :
    Appends sha256 HashRefusal (fun walker => putOperator sha256 configOnly walker operator)
      (OperatorFits configOnly operator) [operatorValue configOnly operator] := by
  have enr := putByteList_appends digest (utf8 operator.enr) maxEnrBytes "enr" (by decide) (by decide)
  have configSignature := @putBytesN_appends sha256 operator.configSignature k1SignatureLength
    "config_signature" (by decide) (by decide)
  have enrSignature := @putBytesN_appends sha256 operator.enrSignature k1SignatureLength
    "enr_signature" (by decide) (by decide)
  have fields := (putAddress_appends operator.address "operator address").seq
    ((enr.seq (configSignature.seq enrSignature)).skippable configOnly)
  intro done
  have closed := fields.container digest (by cases configOnly <;> simp) done
  simp only [bind_assoc] at closed
  refine closed.congr ⟨?_, ?_⟩
  · rintro ⟨address, visited⟩
    exact ⟨address, fun full => (visited full).1, fun full => (visited full).2.1,
      fun full => (visited full).2.2⟩
  · intro fits
    exact ⟨fits.address, fun full => ⟨fits.enr full, fits.configSignature full,
      fits.enrSignature full⟩⟩

def addressesValue (addresses : ValidatorAddresses) : SszValue :=
  .container [addressValue addresses.feeRecipientAddress, addressValue addresses.withdrawalAddress]

structure AddressesFit (addresses : ValidatorAddresses) : Prop where
  feeRecipientAddress : AddressFits addresses.feeRecipientAddress
  withdrawalAddress : AddressFits addresses.withdrawalAddress

include digest in
theorem putValidatorAddresses_appends (addresses : ValidatorAddresses) :
    Appends sha256 HashRefusal (fun walker => putValidatorAddresses sha256 walker addresses)
      (AddressesFit addresses) [addressesValue addresses] := by
  have fields := (@putAddress_appends sha256 addresses.feeRecipientAddress
    "fee_recipient_address").seq (putAddress_appends addresses.withdrawalAddress
      "withdrawal_address")
  intro done
  have closed := fields.container digest (by simp) done
  simp only [bind_assoc] at closed
  exact closed.congr ⟨fun fits => ⟨fits.1, fits.2⟩, fun fits =>
    ⟨fits.feeRecipientAddress, fits.withdrawalAddress⟩⟩

/-- The amounts of the deposits. -/
def Definition.amounts (definition : Definition) : List Nat :=
  definition.depositAmounts.map fun amount => amount.val

def creatorValue (configOnly : Bool) (creator : Creator) : SszValue :=
  .container ([addressValue creator.address] ++
    if configOnly then [] else [bytesNValue k1SignatureLength creator.configSignature])

/-- A definition as the hashes see it. -/
def definitionValue (configOnly : Bool) (definition : Definition) : SszValue :=
  .container ([byteListValue maxUuidBytes (utf8 definition.uuid),
    byteListValue maxNameBytes (utf8 definition.name),
    byteListValue maxVersionBytes (utf8 definition.version),
    byteListValue maxTimestampBytes (utf8 definition.timestamp),
    uint64Value definition.numValidators.val,
    uint64Value definition.threshold.val,
    byteListValue maxDkgAlgorithmBytes (utf8 definition.dkgAlgorithm),
    bytesNValue forkVersionLength definition.forkVersion,
    .list maxOperators (definition.operators.map (operatorValue configOnly)),
    creatorValue configOnly definition.creator,
    .list maxValidators (definition.validatorAddresses.map addressesValue),
    uint64ListValue maxDepositAmounts definition.amounts,
    byteListValue maxNameBytes (utf8 definition.consensusProtocol),
    uint64Value definition.targetGasLimit.val,
    boolValue definition.compounding] ++
      if configOnly then [] else [bytesNValue hashLength definition.configHash])

/-- The fields of a definition that are visited are within their capacities. -/
structure DefinitionFits (configOnly : Bool) (definition : Definition) : Prop where
  uuid : (utf8 definition.uuid).length ≤ maxUuidBytes
  name : (utf8 definition.name).length ≤ maxNameBytes
  version : (utf8 definition.version).length ≤ maxVersionBytes
  timestamp : (utf8 definition.timestamp).length ≤ maxTimestampBytes
  dkgAlgorithm : (utf8 definition.dkgAlgorithm).length ≤ maxDkgAlgorithmBytes
  forkVersion : definition.forkVersion.length ≤ forkVersionLength
  operators : ∀ operator ∈ definition.operators, OperatorFits configOnly operator
  operators_length : definition.operators.length ≤ maxOperators
  creator : AddressFits definition.creator.address
  creator_configSignature : configOnly = false →
    definition.creator.configSignature.length ≤ k1SignatureLength
  validatorAddresses : ∀ addresses ∈ definition.validatorAddresses, AddressesFit addresses
  validatorAddresses_length : definition.validatorAddresses.length ≤ maxValidators
  depositAmounts_length : definition.depositAmounts.length ≤ maxDepositAmounts
  consensusProtocol : (utf8 definition.consensusProtocol).length ≤ maxNameBytes
  configHash : configOnly = false → definition.configHash.length ≤ hashLength

include digest in
theorem putAmounts_appends (definition : Definition) :
    Appends sha256 HashRefusal (fun walker => walker.putUint64Array sha256
      (definition.depositAmounts.map fun amount => (amount.val : Int)) maxDepositAmounts)
      (definition.depositAmounts.length ≤ maxDepositAmounts)
      [uint64ListValue maxDepositAmounts definition.amounts] := by
  intro done
  have small : ∀ value ∈ definition.amounts, value < 2 ^ 64 := by
    intro value member
    obtain ⟨amount, -, rfl⟩ := List.mem_map.mp member
    exact amount.property
  have put := (@putUint64Array_yields _ digest done definition.amounts small maxDepositAmounts
    (by decide) (by decide) (by decide)).mono HashRefusal.of_capacity
  rw [Definition.amounts, List.map_map, List.length_map] at put
  exact put

include digest in
theorem hashDefinitionV1x10_appends (definition : Definition) (configOnly : Bool) :
    Appends sha256 HashRefusal
      (fun walker => hashDefinitionV1x10 sha256 walker definition configOnly)
      (DefinitionFits configOnly definition) [definitionValue configOnly definition] := by
  have byteList := fun text maxBytes field positive bound =>
    putByteList_appends digest (utf8 text) maxBytes field positive bound
  have strings := (byteList definition.uuid maxUuidBytes "uuid" (by decide) (by decide)).seq
    ((byteList definition.name maxNameBytes "name" (by decide) (by decide)).seq
    ((byteList definition.version maxVersionBytes "version" (by decide) (by decide)).seq
    (byteList definition.timestamp maxTimestampBytes "timestamp" (by decide) (by decide))))
  have sizes := (@goInt_appends sha256 definition.numValidators).seq
    (goInt_appends definition.threshold)
  have network := (byteList definition.dkgAlgorithm maxDkgAlgorithmBytes "dkg_algorithm"
    (by decide) (by decide)).seq (putBytesN_appends definition.forkVersion forkVersionLength
      "fork_version" (by decide) (by decide))
  have operators := @Appends.list sha256 _ _ digest HashRefusal.of_capacity _ _ _
    definition.operators (fun operator _ => putOperator_appends digest configOnly operator)
    maxOperators (by decide) (by decide)
  have creator := ((putAddress_appends definition.creator.address "creator address").seq
    ((putBytesN_appends definition.creator.configSignature k1SignatureLength
      "creator config_signature" (by decide) (by decide)).skippable configOnly)).container digest
      (by cases configOnly <;> simp)
  have addresses := @Appends.list sha256 _ _ digest HashRefusal.of_capacity _ _ _
    definition.validatorAddresses
    (fun addresses _ => putValidatorAddresses_appends digest addresses)
    maxValidators (by decide) (by decide)
  have protocol := (byteList definition.consensusProtocol maxNameBytes "consensus_protocol"
    (by decide) (by decide)).seq (goInt_appends definition.targetGasLimit)
  have compounding : Appends sha256 HashRefusal
      (fun walker => .ok (walker.putBool definition.compounding)) True
      [boolValue definition.compounding] :=
    fun done => Yields.of_eq_ok (congrArg Except.ok (putBool_holding done _))
  have stored := (@putBytesN_appends sha256 definition.configHash hashLength "config_hash"
    (by decide) (by decide)).skippable configOnly
  have fields := strings.seq (sizes.seq (network.seq (operators.seq (creator.seq (addresses.seq
    ((putAmounts_appends digest definition).seq (protocol.seq (compounding.seq stored))))))))
  intro done
  have closed := fields.container digest (by cases configOnly <;> simp) done
  simp only [bind_assoc, ok_bind] at closed
  refine closed.congr ⟨?_, ?_⟩
  · rintro ⟨⟨uuid, name, version, timestamp⟩, -, ⟨algorithm, fork⟩, operatorsFit,
      ⟨creatorFits, signature⟩, addressesFit, amounts, ⟨protocolFits, -⟩, -, hash⟩
    exact ⟨uuid, name, version, timestamp, algorithm, fork, operatorsFit.1, operatorsFit.2,
      creatorFits, signature, addressesFit.1, addressesFit.2, amounts, protocolFits, hash⟩
  · intro fits
    exact ⟨⟨fits.uuid, fits.name, fits.version, fits.timestamp⟩, ⟨trivial, trivial⟩,
      ⟨fits.dkgAlgorithm, fits.forkVersion⟩, ⟨fits.operators, fits.operators_length⟩,
      ⟨fits.creator, fits.creator_configSignature⟩,
      ⟨fits.validatorAddresses, fits.validatorAddresses_length⟩, fits.depositAmounts_length,
      ⟨fits.consensusProtocol, trivial⟩, trivial, fits.configHash⟩

end Definitions

/-! ## Locks -/

section Locks

variable {sha256 : Bytes → Bytes} (digest : ∀ data, (sha256 data).length = 32)

def depositValue (deposit : DepositData) : SszValue :=
  .container [bytesNValue pubkeyLength deposit.pubkey,
    bytesNValue withdrawalCredentialsLength deposit.withdrawalCredentials,
    uint64Value deposit.amount.val, bytesNValue blsSignatureLength deposit.signature]

structure DepositFits (deposit : DepositData) : Prop where
  pubkey : deposit.pubkey.length ≤ pubkeyLength
  withdrawalCredentials : deposit.withdrawalCredentials.length ≤ withdrawalCredentialsLength
  signature : deposit.signature.length ≤ blsSignatureLength

include digest in
theorem hashDepositData_appends (deposit : DepositData) :
    Appends sha256 HashRefusal (fun walker => hashDepositData sha256 walker deposit)
      (DepositFits deposit) [depositValue deposit] := by
  have pubkey := @putBytesN_appends sha256 deposit.pubkey pubkeyLength "deposit pubkey" (by decide)
    (by decide)
  have credentials := @putBytesN_appends sha256 deposit.withdrawalCredentials
    withdrawalCredentialsLength "withdrawal_credentials" (by decide) (by decide)
  have amount := @putUint64_appends sha256 _ deposit.amount.property
  have signature := @putBytesN_appends sha256 deposit.signature blsSignatureLength
    "deposit signature" (by decide) (by decide)
  intro done
  have closed := (pubkey.seq (credentials.seq (amount.seq signature))).container digest
    (by simp) done
  simp only [bind_assoc] at closed
  refine closed.congr ⟨?_, ?_⟩
  · rintro ⟨pubkeyFits, credentialsFit, -, signatureFits⟩
    exact ⟨pubkeyFits, credentialsFit, signatureFits⟩
  · intro fits
    exact ⟨fits.pubkey, fits.withdrawalCredentials, trivial, fits.signature⟩

include digest in
theorem putPartialDeposit_appends (deposit : DepositData) :
    Appends sha256 HashRefusal (fun walker => putPartialDeposit sha256 walker deposit)
      (DepositFits deposit) [.container [depositValue deposit]] :=
  (hashDepositData_appends digest deposit).container digest (by simp)

/-- A registration; an empty fee recipient is no field at all. -/
def registrationValue (registration : Registration) : SszValue :=
  .container (bytesValues registration.feeRecipient ++
    [uint64Value registration.gasLimit.val, uint64Value registration.timestamp.val,
      bytesNValue pubkeyLength registration.pubkey])

include digest in
theorem hashRegistration_appends (registration : Registration)
    (addressable : registration.feeRecipient.length < 2 ^ 63) :
    Appends sha256 HashRefusal (fun walker => hashRegistration sha256 walker registration)
      (registration.pubkey.length ≤ pubkeyLength) [registrationValue registration] := by
  have recipient : Appends sha256 HashRefusal
      (fun walker => walker.putBytes sha256 registration.feeRecipient) True
      (bytesValues registration.feeRecipient) :=
    fun done => Yields.of_eq_ok (putBytes_holding done addressable)
  have pubkey := @putBytesN_appends sha256 registration.pubkey pubkeyLength "registration pubkey"
    (by decide) (by decide)
  have single : (bytesValues registration.feeRecipient).length ≤ 1 := by
    unfold bytesValues
    split <;> simp
  intro done
  have closed := (recipient.seq ((goInt_appends registration.gasLimit).seq
    ((goInt_appends registration.timestamp).seq pubkey))).container digest
      (by simp only [List.length_append, List.length_singleton]; omega) done
  simp only [bind_assoc] at closed
  exact closed.congr (by simp)

def builderRegistrationValue (registration : BuilderRegistration) : SszValue :=
  .container [registrationValue registration.message,
    bytesNValue blsSignatureLength registration.signature]

structure BuilderRegistrationFits (registration : BuilderRegistration) : Prop where
  pubkey : registration.message.pubkey.length ≤ pubkeyLength
  signature : registration.signature.length ≤ blsSignatureLength

include digest in
theorem hashBuilderRegistration_appends (registration : BuilderRegistration)
    (addressable : registration.message.feeRecipient.length < 2 ^ 63) :
    Appends sha256 HashRefusal (fun walker => hashBuilderRegistration sha256 walker registration)
      (BuilderRegistrationFits registration) [builderRegistrationValue registration] := by
  have message := hashRegistration_appends digest registration.message addressable
  have signature := @putBytesN_appends sha256 registration.signature blsSignatureLength
    "registration signature" (by decide) (by decide)
  intro done
  have closed := (message.seq signature).container digest (by simp) done
  simp only [bind_assoc] at closed
  exact closed.congr ⟨fun fits => ⟨fits.1, fits.2⟩, fun fits => ⟨fits.pubkey, fits.signature⟩⟩

def validatorValue (validator : DistValidator) : SszValue :=
  .container [bytesNValue pubkeyLength validator.pubkey,
    .list maxOperators (validator.pubshares.map (bytesNValue pubkeyLength)),
    .list maxDepositAmounts
      (validator.partialDepositData.map fun deposit => .container [depositValue deposit]),
    builderRegistrationValue validator.builderRegistration]

structure ValidatorFits (validator : DistValidator) : Prop where
  pubkey : validator.pubkey.length ≤ pubkeyLength
  pubshares : ∀ pubshare ∈ validator.pubshares, pubshare.length ≤ pubkeyLength
  pubshares_length : validator.pubshares.length ≤ maxOperators
  partialDepositData : ∀ deposit ∈ validator.partialDepositData, DepositFits deposit
  partialDepositData_length : validator.partialDepositData.length ≤ maxDepositAmounts
  builderRegistration : BuilderRegistrationFits validator.builderRegistration

include digest in
theorem hashValidatorV1x8OrLater_appends (validator : DistValidator)
    (addressable : validator.builderRegistration.message.feeRecipient.length < 2 ^ 63) :
    Appends sha256 HashRefusal (fun walker => hashValidatorV1x8OrLater sha256 walker validator)
      (ValidatorFits validator) [validatorValue validator] := by
  have pubkey := @putBytesN_appends sha256 validator.pubkey pubkeyLength "validator pubkey"
    (by decide) (by decide)
  have pubshares := @Appends.list sha256 _ _ digest HashRefusal.of_capacity _ _ _
    validator.pubshares
    (fun pubshare _ => @putBytesN_appends sha256 pubshare pubkeyLength "pubshare" (by decide)
      (by decide)) maxOperators (by decide) (by decide)
  have deposits := @Appends.list sha256 _ _ digest HashRefusal.of_capacity _ _ _
    validator.partialDepositData (fun deposit _ => putPartialDeposit_appends digest deposit)
    maxDepositAmounts (by decide) (by decide)
  have registration :=
    hashBuilderRegistration_appends digest validator.builderRegistration addressable
  intro done
  have closed := (pubkey.seq (pubshares.seq (deposits.seq registration))).container digest
    (by simp) done
  simp only [bind_assoc] at closed
  refine closed.congr ⟨?_, ?_⟩
  · rintro ⟨pubkeyFits, sharesFit, depositsFit, registrationFits⟩
    exact ⟨pubkeyFits, sharesFit.1, sharesFit.2, depositsFit.1, depositsFit.2, registrationFits⟩
  · intro fits
    exact ⟨fits.pubkey, ⟨fits.pubshares, fits.pubshares_length⟩,
      ⟨fits.partialDepositData, fits.partialDepositData_length⟩, fits.builderRegistration⟩

/-- A lock as its hash sees it. -/
def lockValue (lock : Lock) : SszValue :=
  .container [definitionValue false lock.definition,
    .list maxValidators (lock.validators.map validatorValue)]

/-- The fields of a lock are within their capacities; nothing is asked of a fee recipient. -/
structure LockFits (lock : Lock) : Prop where
  definition : DefinitionFits false lock.definition
  validators : ∀ validator ∈ lock.validators, ValidatorFits validator
  validators_length : lock.validators.length ≤ maxValidators

/-- A bytes object has no more bytes than an index can count. -/
def Addressable (lock : Lock) : Prop :=
  ∀ validator ∈ lock.validators,
    validator.builderRegistration.message.feeRecipient.length < 2 ^ 63

include digest in
theorem hashLockV1x3OrLater_appends (lock : Lock) (addressable : Addressable lock) :
    Appends sha256 HashRefusal (fun walker => hashLockV1x3OrLater sha256 walker lock)
      (LockFits lock) [lockValue lock] := by
  have definition := hashDefinitionV1x10_appends digest lock.definition false
  have validators := @Appends.list sha256 _ _ digest HashRefusal.of_capacity _ _ _
    lock.validators (fun validator member => hashValidatorV1x8OrLater_appends digest validator
      (addressable validator member)) maxValidators (by decide) (by decide)
  intro done
  have closed := (definition.seq validators).container digest (by simp) done
  simp only [bind_assoc] at closed
  exact closed.congr ⟨fun fits => ⟨fits.1, fits.2.1, fits.2.2⟩, fun fits =>
    ⟨fits.definition, fits.validators, fits.validators_length⟩⟩

end Locks

/-! ## Hashes -/

section Hashes

variable {sha256 : Bytes → Bytes} (digest : ∀ data, (sha256 data).length = 32)

include digest

/-- A walk that leaves one value gives its root as the hash. -/
theorem yields_root {walk : HashWalker → Except PyError HashWalker} {fits : Prop}
    {value : SszValue} (appends : Appends sha256 HashRefusal walk fits [value]) {version : String}
    (supported : version ∈ supportedVersions) :
    Yields HashRefusal
      (do
        requireSupportedVersion version
        let walker ← walk HashWalker.new
        walker.hashRoot)
      fits (value.root sha256) := by
  have checked : requireSupportedVersion version = .ok () := if_pos supported
  have walked := appends []
  rw [holding_nil, List.nil_append] at walked
  rw [checked, ok_bind]
  exact (walked.bind (Yields.of_eq_ok (hashRoot_holding digest value))).congr (by simp)

theorem configHash_yields (definition : Definition) :
    Yields HashRefusal (configHash sha256 definition) (DefinitionFits true definition)
      ((definitionValue true definition).root sha256) :=
  yields_root digest (hashDefinitionV1x10_appends digest definition true)
    definition.version_supported

theorem definitionHash_yields (definition : Definition) :
    Yields HashRefusal (definitionHash sha256 definition) (DefinitionFits false definition)
      ((definitionValue false definition).root sha256) :=
  yields_root digest (hashDefinitionV1x10_appends digest definition false)
    definition.version_supported

theorem lockHash_yields (lock : Lock) (addressable : Addressable lock) :
    Yields HashRefusal (lockHash sha256 lock) (LockFits lock) ((lockValue lock).root sha256) :=
  yields_root digest (hashLockV1x3OrLater_appends digest lock addressable)
    lock.definition.version_supported

end Hashes

/-! ## Failures -/

/-- A hash of 32 bytes under a condition, and otherwise a capacity or address error. -/
structure HashesWhen (hash : Except PyError Bytes) (condition : Prop) : Prop where
  returns : (∃ root, hash = .ok root ∧ root.length = 32) ↔ condition
  raises : ¬ condition → ∃ message, hash = .error (.valueError message) ∧
    (CapacityError message ∨ AddressError message)

theorem hashesWhen_of_yields {sha256 : Bytes → Bytes} (digest : ∀ data, (sha256 data).length = 32)
    {hash : Except PyError Bytes} {condition : Prop} {value : SszValue}
    (yields : Yields HashRefusal hash condition (value.root sha256)) :
    HashesWhen hash condition := by
  refine ⟨⟨?_, ?_⟩, ?_⟩
  · rintro ⟨root, returned, -⟩
    exact (yields.eq_ok_iff.mp returned).1
  · intro fits
    exact ⟨_, yields.returns fits, SszValue.length_root digest value⟩
  · intro refused
    obtain ⟨_, raised, message, rfl, named⟩ := yields.raises refused
    exact ⟨message, raised, named⟩

/-- The three hashes return 32 bytes exactly when the fields they visit are within their
capacities and the addresses decode, whatever the fee recipients of the registrations; they
raise nothing but capacity and address errors. -/
theorem clusterHashes_fail_only_on_limits {sha256 : Bytes → Bytes}
    (digest : ∀ data, (sha256 data).length = 32) :
    (∀ lock, Addressable lock → HashesWhen (lockHash sha256 lock) (LockFits lock)) ∧
      (∀ definition, HashesWhen (configHash sha256 definition) (DefinitionFits true definition)) ∧
      ∀ definition,
        HashesWhen (definitionHash sha256 definition) (DefinitionFits false definition) :=
  ⟨fun lock addressable => hashesWhen_of_yields digest (lockHash_yields digest lock addressable),
    fun definition => hashesWhen_of_yields digest (configHash_yields digest definition),
    fun definition => hashesWhen_of_yields digest (definitionHash_yields digest definition)⟩

/-- A definition without operators and validators. -/
def bareDefinition (threshold : GoInt) (configHash : Bytes) : Definition where
  uuid := ""
  name := ""
  version := versionV1x10
  timestamp := ""
  numValidators := ⟨0, by decide⟩
  threshold := threshold
  dkgAlgorithm := ""
  forkVersion := [0, 0, 0, 0]
  operators := []
  creator := { address := "", configSignature := List.replicate 65 0 }
  validatorAddresses := []
  depositAmounts := []
  consensusProtocol := ""
  targetGasLimit := ⟨0, by decide⟩
  compounding := false
  configHash := configHash
  definitionHash := []
  version_supported := List.mem_singleton_self _
  numValidators_eq := rfl

/-- A lock of a definition with the given validators. -/
def bareLock (definition : Definition) (validators : List DistValidator) : Lock where
  definition := definition
  validators := validators
  lockHash := []
  signatureAggregate := []
  nodeSignatures := []

/-- A validator without shares whose registration pays the given recipient. -/
def payingValidator (feeRecipient : Bytes) : DistValidator where
  pubkey := []
  pubshares := []
  partialDepositData := []
  builderRegistration := {
    message := {
      feeRecipient := feeRecipient
      gasLimit := ⟨0, by decide⟩
      timestamp := ⟨0, by decide⟩
      pubkey := [] }
    signature := [] }

theorem definitionFits_bare (configOnly : Bool) (threshold : GoInt) {configHash : Bytes}
    (fits : configHash.length ≤ hashLength) :
    DefinitionFits configOnly (bareDefinition threshold configHash) where
  uuid := Nat.zero_le _
  name := Nat.zero_le _
  version := show (utf8 versionV1x10).length ≤ maxVersionBytes by decide
  timestamp := Nat.zero_le _
  dkgAlgorithm := Nat.zero_le _
  forkVersion := Nat.le_refl _
  operators := List.forall_mem_nil _
  operators_length := Nat.zero_le _
  creator := Or.inl rfl
  creator_configSignature := fun _ => Nat.le_of_eq List.length_replicate
  validatorAddresses := List.forall_mem_nil _
  validatorAddresses_length := Nat.zero_le _
  depositAmounts_length := Nat.zero_le _
  consensusProtocol := Nat.zero_le _
  configHash := fun _ => fits

theorem lockFits_paying (feeRecipient : Bytes) :
    LockFits (bareLock (bareDefinition ⟨0, by decide⟩ []) [payingValidator feeRecipient]) where
  definition := definitionFits_bare false _ (Nat.zero_le _)
  validators := List.forall_mem_singleton.mpr
    { pubkey := Nat.zero_le _
      pubshares := List.forall_mem_nil _
      pubshares_length := Nat.zero_le _
      partialDepositData := List.forall_mem_nil _
      partialDepositData_length := Nat.zero_le _
      builderRegistration := ⟨Nat.zero_le _, Nat.zero_le _⟩ }
  validators_length := show 1 ≤ maxValidators by decide

theorem addressable_paying {feeRecipient : Bytes} (bound : feeRecipient.length < 2 ^ 63) :
    Addressable (bareLock (bareDefinition ⟨0, by decide⟩ []) [payingValidator feeRecipient]) :=
  List.forall_mem_singleton.mpr bound

/-- A lock whose hash exists. -/
theorem clusterHashes_fail_only_on_limits_paying :
    ∃ root, lockHash Sha256.sha256
      (bareLock (bareDefinition ⟨0, by decide⟩ []) [payingValidator (List.replicate 20 1)]) =
        .ok root ∧ root.length = 32 :=
  ((clusterHashes_fail_only_on_limits Sha256.length_sha256).1 _
    (addressable_paying (by decide))).returns.mpr (lockFits_paying _)

/-- A fee recipient of 21 bytes exceeds its declared length, and the lock is hashed. -/
theorem lockHash_long_feeRecipient :
    ¬ HashesWhen
      (lockHash Sha256.sha256
        (bareLock (bareDefinition ⟨0, by decide⟩ []) [payingValidator (List.replicate 21 1)]))
      (LockFits (bareLock (bareDefinition ⟨0, by decide⟩ [])
          [payingValidator (List.replicate 21 1)]) ∧
        ∀ validator ∈ (bareLock (bareDefinition ⟨0, by decide⟩ [])
            [payingValidator (List.replicate 21 1)]).validators,
          validator.builderRegistration.message.feeRecipient.length ≤ addressLength) := by
  intro claimed
  have hashed := (hashesWhen_of_yields Sha256.length_sha256 (lockHash_yields Sha256.length_sha256 _
    (addressable_paying (by decide)))).returns.mpr (lockFits_paying (List.replicate 21 1))
  have short := (claimed.returns.mp hashed).2 _ List.mem_cons_self
  exact absurd short (by decide)

/-! ## A cluster of two operators -/

def pairOperator : Operator where
  address := ""
  enr := "enr:-"
  configSignature := List.replicate k1SignatureLength 1
  enrSignature := List.replicate k1SignatureLength 2

/-- A definition for two operators and a validator. -/
def pairDefinition (threshold : GoInt) : Definition where
  uuid := ""
  name := "pair"
  version := versionV1x10
  timestamp := ""
  numValidators := ⟨1, by decide⟩
  threshold := threshold
  dkgAlgorithm := ""
  forkVersion := [0, 0, 0, 0]
  operators := [pairOperator, pairOperator]
  creator := { address := "", configSignature := List.replicate k1SignatureLength 0 }
  validatorAddresses := [{ feeRecipientAddress := "", withdrawalAddress := "" }]
  depositAmounts := [⟨32000000000, by decide⟩]
  consensusProtocol := ""
  targetGasLimit := ⟨0, by decide⟩
  compounding := false
  configHash := List.replicate hashLength 0
  definitionHash := []
  version_supported := List.mem_singleton_self _
  numValidators_eq := rfl

/-- The validator, with the shares of the two operators and a deposit. -/
def pairValidator : DistValidator where
  pubkey := List.replicate pubkeyLength 3
  pubshares := [List.replicate pubkeyLength 1, List.replicate pubkeyLength 2]
  partialDepositData := [{
    pubkey := List.replicate pubkeyLength 3
    withdrawalCredentials := List.replicate withdrawalCredentialsLength 0
    amount := ⟨32000000000, by decide⟩
    signature := List.replicate blsSignatureLength 0 }]
  builderRegistration := {
    message := {
      feeRecipient := List.replicate addressLength 0
      gasLimit := ⟨30000000, by decide⟩
      timestamp := ⟨0, by decide⟩
      pubkey := List.replicate pubkeyLength 3 }
    signature := List.replicate blsSignatureLength 0 }

def pairLock (threshold : GoInt) : Lock := bareLock (pairDefinition threshold) [pairValidator]

theorem definitionFits_pair (configOnly : Bool) (threshold : GoInt) :
    DefinitionFits configOnly (pairDefinition threshold) where
  uuid := Nat.zero_le _
  name := show (utf8 "pair").length ≤ maxNameBytes by decide
  version := show (utf8 versionV1x10).length ≤ maxVersionBytes by decide
  timestamp := Nat.zero_le _
  dkgAlgorithm := Nat.zero_le _
  forkVersion := Nat.le_refl _
  operators := by
    have fits : OperatorFits configOnly pairOperator :=
      ⟨Or.inl rfl, fun _ => show (utf8 "enr:-").length ≤ maxEnrBytes by decide,
        fun _ => Nat.le_of_eq List.length_replicate, fun _ => Nat.le_of_eq List.length_replicate⟩
    exact List.forall_mem_cons.mpr ⟨fits, List.forall_mem_singleton.mpr fits⟩
  operators_length := show 2 ≤ maxOperators by decide
  creator := Or.inl rfl
  creator_configSignature := fun _ => Nat.le_of_eq List.length_replicate
  validatorAddresses := List.forall_mem_singleton.mpr ⟨Or.inl rfl, Or.inl rfl⟩
  validatorAddresses_length := show 1 ≤ maxValidators by decide
  depositAmounts_length := show 1 ≤ maxDepositAmounts by decide
  consensusProtocol := Nat.zero_le _
  configHash := fun _ => Nat.le_of_eq List.length_replicate

theorem lockFits_pair (threshold : GoInt) : LockFits (pairLock threshold) where
  definition := definitionFits_pair false threshold
  validators := List.forall_mem_singleton.mpr
    { pubkey := Nat.le_of_eq List.length_replicate
      pubshares := List.forall_mem_cons.mpr ⟨Nat.le_of_eq List.length_replicate,
        List.forall_mem_singleton.mpr (Nat.le_of_eq List.length_replicate)⟩
      pubshares_length := show 2 ≤ maxOperators by decide
      partialDepositData := List.forall_mem_singleton.mpr
        ⟨Nat.le_of_eq List.length_replicate, Nat.le_of_eq List.length_replicate,
          Nat.le_of_eq List.length_replicate⟩
      partialDepositData_length := show 1 ≤ maxDepositAmounts by decide
      builderRegistration := ⟨Nat.le_of_eq List.length_replicate,
        Nat.le_of_eq List.length_replicate⟩ }
  validators_length := show 1 ≤ maxValidators by decide

end DvSpec.Cluster
