import DvSpec.Cluster.Lock
import DvSpec.Library.Codec

/-!
# Cluster files

The JSON form of definitions and locks, declared field by field.  Byte fields are hex
strings, amounts are decimal strings, and a list may be null.
-/

namespace DvSpec.Cluster

open DvSpec.Library

/-! ## Annotated types -/

/-- The message of a value error that a validator raised. -/
def valueErrorMessage : PyError → String
  | .valueError message => s!"Value error, {message}"
  | _ => "Value error"

/-- A field that fails with the value error of its validator. -/
def validated {α : Type} : Except PyError α → Validated α
  | .ok value => .valid value
  | .error raised => .invalid [⟨[], valueErrorMessage raised⟩]

/-- Bytes that read and write as a hex string; nothing but a string is decoded. -/
def hexBytesField : Codec Bytes where
  serialize value := .str (encodeHexBytes value)
  validate
    | .str text => validated (decodeHexBytes text)
    | _ => .invalid [⟨[], "Input should be a valid bytes"⟩]
  validate_serialize value := congrArg validated (decodeHexBytes_encodeHexBytes value)
  wellFormed value := .str (encodeHexBytes value)

/-- Turn a JSON null into an empty list, leaving anything else alone. -/
def emptyListIfNull : Json → Json
  | .null => .arr []
  | document => document

/-- A list field that accepts null. -/
def nullableList {α : Type} (codec : Codec α) : Codec (List α) :=
  codec.list.before emptyListIfNull fun _ => rfl

variable (coercions : Coercions)

/-- A numeric field of a signed 64-bit integer. -/
def goInt : Codec GoInt := coercions.nat (2 ^ 63)

theorem zero_lt_goIntBound : 0 < 2 ^ 63 := by decide

/-- An amount, written as a JSON string. -/
def gwei : Codec Gwei := coercions.decimalNat (2 ^ 64) (Nat.le_refl _)

theorem requireSupportedVersion_eq_ok_iff {version : String} :
    requireSupportedVersion version = .ok () ↔ version ∈ supportedVersions := by
  unfold requireSupportedVersion
  split
  · exact iff_of_true rfl ‹_›
  · refine iff_of_false ?_ ‹_›
    intro returns
    cases returns

/-- Reject other versions at parse. -/
def versionMustBeSupported (value : String) :
    Except String { version : String // version ∈ supportedVersions } :=
  match outcome : requireSupportedVersion value with
  | .ok () => .ok ⟨value, requireSupportedVersion_eq_ok_iff.mp outcome⟩
  | .error raised => .error (valueErrorMessage raised)

theorem versionMustBeSupported_val (version : { version : String // version ∈ supportedVersions }) :
    versionMustBeSupported version.val = .ok version := by
  have returns := requireSupportedVersion_eq_ok_iff.mpr version.property
  unfold versionMustBeSupported
  split
  · rfl
  · rename_i raised refused
    rw [returns] at refused
    cases refused

def versionField : Codec { version : String // version ∈ supportedVersions } :=
  coercions.str.checked Subtype.val versionMustBeSupported versionMustBeSupported_val

/-! ## Declarations of fields -/

/-- A field without an alias. -/
def plain (name : String) : FieldInfo := ⟨name, none⟩

@[simp]
theorem key_plain (name : String) : (plain name).key = name := rfl

/-- A field with an alias, by which it is written. -/
def aliased (name aliasName : String) : FieldInfo := ⟨name, some aliasName⟩

@[simp]
theorem key_aliased (name aliasName : String) : (aliased name aliasName).key = aliasName := rfl

/-! ## The definition -/

def operatorFields : ModelFields Operator (Validated Operator) :=
  (ModelFields.of fun address enr configSignature enrSignature =>
      .valid ⟨address, enr, configSignature, enrSignature⟩)
    |>.required (plain "address") Operator.address coercions.str
    |>.defaulted (plain "enr") Operator.enr coercions.str ""
    |>.defaulted (plain "config_signature") Operator.configSignature hexBytesField []
    |>.defaulted (plain "enr_signature") Operator.enrSignature hexBytesField []

def operatorModel : Codec Operator :=
  .model "Operator" (operatorFields coercions) id (by simp [operatorFields]) fun _ => rfl

def creatorFields : ModelFields Creator (Validated Creator) :=
  (ModelFields.of fun address configSignature => .valid ⟨address, configSignature⟩)
    |>.required (plain "address") Creator.address coercions.str
    |>.defaulted (plain "config_signature") Creator.configSignature hexBytesField []

def creatorModel : Codec Creator :=
  .model "Creator" (creatorFields coercions) id (by simp [creatorFields]) fun _ => rfl

def validatorAddressesFields : ModelFields ValidatorAddresses (Validated ValidatorAddresses) :=
  (ModelFields.of fun feeRecipientAddress withdrawalAddress =>
      .valid ⟨feeRecipientAddress, withdrawalAddress⟩)
    |>.required (plain "fee_recipient_address") ValidatorAddresses.feeRecipientAddress coercions.str
    |>.required (plain "withdrawal_address") ValidatorAddresses.withdrawalAddress coercions.str

def validatorAddressesModel : Codec ValidatorAddresses :=
  .model "ValidatorAddresses" (validatorAddressesFields coercions) id
    (by simp [validatorAddressesFields]) fun _ => rfl

/-- Reject a number of validators that disagrees with the address list. -/
def numValidatorsMustMatch (uuid name : String)
    (version : { version : String // version ∈ supportedVersions }) (timestamp : String)
    (numValidators threshold : GoInt) (dkgAlgorithm : String) (forkVersion : Bytes)
    (operators : List Operator) (creator : Creator) (validatorAddresses : List ValidatorAddresses)
    (depositAmounts : List Gwei) (consensusProtocol : String) (targetGasLimit : GoInt)
    (compounding : Bool) (configHash definitionHash : Bytes) : Validated Definition :=
  if numValidators_eq : numValidators.val = validatorAddresses.length then
    .valid {
      uuid, name, version := version.val, timestamp, numValidators, threshold, dkgAlgorithm,
      forkVersion, operators, creator, validatorAddresses, depositAmounts, consensusProtocol,
      targetGasLimit, compounding, configHash, definitionHash,
      version_supported := version.property, numValidators_eq }
  else
    let entries := validatorAddresses.length
    .invalid [⟨[], s!"Value error, num_validators is {numValidators.val} but the file has " ++
      s!"{entries} validator address entries"⟩]

def definitionFields : ModelFields Definition (Validated Definition) :=
  (ModelFields.of numValidatorsMustMatch)
    |>.required (plain "uuid") Definition.uuid coercions.str
    |>.defaulted (plain "name") Definition.name coercions.str ""
    |>.required (plain "version")
      (fun definition => ⟨definition.version, definition.version_supported⟩) (versionField coercions)
    |>.defaulted (plain "timestamp") Definition.timestamp coercions.str ""
    |>.required (plain "num_validators") Definition.numValidators (goInt coercions)
    |>.required (plain "threshold") Definition.threshold (goInt coercions)
    |>.defaulted (plain "dkg_algorithm") Definition.dkgAlgorithm coercions.str ""
    |>.required (plain "fork_version") Definition.forkVersion hexBytesField
    |>.defaulted (plain "operators") Definition.operators (nullableList (operatorModel coercions)) []
    |>.required (plain "creator") Definition.creator (creatorModel coercions)
    |>.defaulted (aliased "validator_addresses" "validators") Definition.validatorAddresses
      (nullableList (validatorAddressesModel coercions)) []
    |>.defaulted (plain "deposit_amounts") Definition.depositAmounts
      (nullableList (gwei coercions)) []
    |>.defaulted (plain "consensus_protocol") Definition.consensusProtocol coercions.str ""
    |>.defaulted (plain "target_gas_limit") Definition.targetGasLimit (goInt coercions)
      ⟨0, zero_lt_goIntBound⟩
    |>.defaulted (plain "compounding") Definition.compounding coercions.bool false
    |>.defaulted (plain "config_hash") Definition.configHash hexBytesField []
    |>.defaulted (plain "definition_hash") Definition.definitionHash hexBytesField []

/-- The check of the whole model accepts what a definition is made of. -/
theorem numValidatorsMustMatch_view (definition : Definition) :
    (definitionFields coercions).view definition = .valid definition :=
  dif_pos definition.numValidators_eq

/-- The keys of a definition file. -/
theorem keys_definitionFields : (definitionFields coercions).keys =
    ["uuid", "name", "version", "timestamp", "num_validators", "threshold", "dkg_algorithm",
      "fork_version", "operators", "creator", "validators", "deposit_amounts",
      "consensus_protocol", "target_gas_limit", "compounding", "config_hash",
      "definition_hash"] := by
  simp [definitionFields]

theorem nodup_keys_definitionFields : (definitionFields coercions).keys.Nodup := by
  rw [keys_definitionFields]
  decide

def definitionModel : Codec Definition :=
  .model "Definition" (definitionFields coercions) id (nodup_keys_definitionFields coercions)
    (numValidatorsMustMatch_view coercions)

/-! ## The lock -/

def depositDataFields : ModelFields DepositData (Validated DepositData) :=
  (ModelFields.of fun pubkey withdrawalCredentials amount signature =>
      .valid ⟨pubkey, withdrawalCredentials, amount, signature⟩)
    |>.required (plain "pubkey") DepositData.pubkey hexBytesField
    |>.required (plain "withdrawal_credentials") DepositData.withdrawalCredentials hexBytesField
    |>.required (plain "amount") DepositData.amount (gwei coercions)
    |>.required (plain "signature") DepositData.signature hexBytesField

def depositDataModel : Codec DepositData :=
  .model "DepositData" (depositDataFields coercions) id (by simp [depositDataFields]) fun _ => rfl

def registrationFields : ModelFields Registration (Validated Registration) :=
  (ModelFields.of fun feeRecipient gasLimit timestamp pubkey =>
      .valid ⟨feeRecipient, gasLimit, timestamp, pubkey⟩)
    |>.required (plain "fee_recipient") Registration.feeRecipient hexBytesField
    |>.required (plain "gas_limit") Registration.gasLimit (goInt coercions)
    |>.required (plain "timestamp") Registration.timestamp (goInt coercions)
    |>.required (plain "pubkey") Registration.pubkey hexBytesField

def registrationModel : Codec Registration :=
  .model "Registration" (registrationFields coercions) id (by simp [registrationFields])
    fun _ => rfl

def builderRegistrationFields : ModelFields BuilderRegistration (Validated BuilderRegistration) :=
  (ModelFields.of fun message signature => .valid ⟨message, signature⟩)
    |>.required (plain "message") BuilderRegistration.message (registrationModel coercions)
    |>.required (plain "signature") BuilderRegistration.signature hexBytesField

def builderRegistrationModel : Codec BuilderRegistration :=
  .model "BuilderRegistration" (builderRegistrationFields coercions) id
    (by simp [builderRegistrationFields]) fun _ => rfl

def distValidatorFields : ModelFields DistValidator (Validated DistValidator) :=
  (ModelFields.of fun pubkey pubshares partialDepositData builderRegistration =>
      .valid ⟨pubkey, pubshares, partialDepositData, builderRegistration⟩)
    |>.required (aliased "pubkey" "distributed_public_key") DistValidator.pubkey hexBytesField
    |>.defaulted (aliased "pubshares" "public_shares") DistValidator.pubshares
      (nullableList hexBytesField) []
    |>.defaulted (plain "partial_deposit_data") DistValidator.partialDepositData
      (nullableList (depositDataModel coercions)) []
    |>.required (plain "builder_registration") DistValidator.builderRegistration
      (builderRegistrationModel coercions)

def distValidatorModel : Codec DistValidator :=
  .model "DistValidator" (distValidatorFields coercions) id (by simp [distValidatorFields]) fun _ => rfl

def lockFields : ModelFields Lock (Validated Lock) :=
  (ModelFields.of fun definition validators lockHash signatureAggregate nodeSignatures =>
      .valid ⟨definition, validators, lockHash, signatureAggregate, nodeSignatures⟩)
    |>.required (aliased "definition" "cluster_definition") Lock.definition
      (definitionModel coercions)
    |>.defaulted (aliased "validators" "distributed_validators") Lock.validators
      (nullableList (distValidatorModel coercions)) []
    |>.defaulted (plain "lock_hash") Lock.lockHash hexBytesField []
    |>.defaulted (plain "signature_aggregate") Lock.signatureAggregate hexBytesField []
    |>.defaulted (plain "node_signatures") Lock.nodeSignatures (nullableList hexBytesField) []

def lockModel : Codec Lock :=
  .model "Lock" (lockFields coercions) id (by simp [lockFields]) fun _ => rfl

/-! ## Files -/

/-- `value.model_dump_json()` -/
def modelDumpJson {α : Type} (json : JsonLibrary) (codec : Codec α) (value : α) : String :=
  json.dumps (codec.serialize value)

/-- `Model.model_validate(json.loads(text))` -/
def modelValidate {α : Type} (json : JsonLibrary) (codec : Codec α) (text : String) : Validated α :=
  match json.loads text with
  | some document => codec.validate document
  | none => .invalid [⟨[], "Invalid JSON"⟩]

end DvSpec.Cluster
