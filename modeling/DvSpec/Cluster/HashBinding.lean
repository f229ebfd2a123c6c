import DvSpec.Cluster.HashRoots

/-!
# What the cluster hashes bind

Definitions and locks whose fixed-size fields have their full length are
determined by their hashes as far as the walk visits them: SSZ roots bind values
of one type, and the values bind the fields.
-/

namespace DvSpec.Cluster

open DvSpec.Encoding DvSpec.Encoding.SszValue DvSpec.Library.Raising
open DvSpec.Encoding.HashWalker (bytesValues)

/-! ## Values of one type -/

theorem alike_byteList {maxBytes : Nat} (bound : maxBytes < 2 ^ 64) {one two : Bytes}
    (fitsOne : one.length ≤ maxBytes) (fitsTwo : two.length ≤ maxBytes) :
    Alike (byteListValue maxBytes one) (byteListValue maxBytes two) := by
  refine ⟨rfl, ?_, Nat.lt_of_le_of_lt fitsOne bound, Nat.lt_of_le_of_lt fitsTwo bound, id⟩
  rw [length_chunkify]
  unfold chunkSize
  omega

theorem alike_bytesN {size : Nat} {one two : Bytes} (fitsOne : one.length ≤ size)
    (fitsTwo : two.length ≤ size) : Alike (bytesNValue size one) (bytesNValue size two) :=
  (length_rightJustified fitsOne).trans (length_rightJustified fitsTwo).symm

theorem alike_uint64 (one two : Nat) : Alike (uint64Value one) (uint64Value two) :=
  (length_littleEndian _ one).trans (length_littleEndian _ two).symm

theorem alike_bool (one two : Bool) : Alike (boolValue one) (boolValue two) := by
  cases one <;> cases two <;> rfl

theorem alike_uint64List {maxCapacity : Nat} (bound : maxCapacity < 2 ^ 60) {one two : List Nat}
    (fitsOne : one.length ≤ maxCapacity) (fitsTwo : two.length ≤ maxCapacity) :
    Alike (uint64ListValue maxCapacity one) (uint64ListValue maxCapacity two) := by
  refine ⟨rfl, ?_, by omega, by omega, fun counts => ?_⟩
  · rw [length_chunkify, length_packed]
    unfold uint64Size chunkSize
    omega
  · rw [length_packed, length_packed, counts]

theorem allAlike_map {α : Type} {value : α → SszValue} :
    ∀ {one two : List α}, one.length = two.length →
      (∀ first ∈ one, ∀ second ∈ two, Alike (value first) (value second)) →
      AllAlike (one.map value) (two.map value)
  | [], [], _, _ => trivial
  | [], _ :: _, lengths, _ => by cases lengths
  | _ :: _, [], lengths, _ => by cases lengths
  | first :: one, second :: two, lengths, each =>
      ⟨each _ List.mem_cons_self _ List.mem_cons_self,
        allAlike_map (Nat.succ.inj lengths) fun item inOne other inTwo =>
          each item (List.mem_cons_of_mem _ inOne) other (List.mem_cons_of_mem _ inTwo)⟩

theorem alike_list {α : Type} {value : α → SszValue} {limit : Nat} (bound : limit < 2 ^ 64)
    {one two : List α} (fitsOne : one.length ≤ limit) (fitsTwo : two.length ≤ limit)
    (each : ∀ first ∈ one, ∀ second ∈ two, Alike (value first) (value second)) :
    Alike (.list limit (one.map value)) (.list limit (two.map value)) := by
  refine ⟨rfl, ?_, ?_, ?_, fun lengths => allAlike_map ?_ each⟩
  · rwa [List.length_map]
  · rw [List.length_map]
    omega
  · rw [List.length_map]
    omega
  · rwa [List.length_map, List.length_map] at lengths

/-- Visited fields of one type, or none at all. -/
theorem allAlike_skippable {skipped : Bool} {one two : List SszValue}
    (each : skipped = false → AllAlike one two) :
    AllAlike (if skipped then [] else one) (if skipped then [] else two) := by
  cases skipped with
  | true => trivial
  | false => exact each rfl

/-! ## Fields of equal values -/

theorem byteListValue_inj {maxBytes : Nat} {one two : Bytes} :
    byteListValue maxBytes one = byteListValue maxBytes two ↔ one = two :=
  ⟨fun equal => (SszValue.packed.inj equal).2.2, congrArg _⟩

theorem utf8_value_inj {maxBytes : Nat} {one two : String} :
    byteListValue maxBytes (utf8 one) = byteListValue maxBytes (utf8 two) ↔ one = two := by
  rw [byteListValue_inj]
  exact utf8_injective.eq_iff

/-- Data of full length is not padded. -/
theorem rightJustified_of_full {size : Nat} {data : Bytes} (full : data.length = size) :
    rightJustified size data = data := by
  rw [rightJustified, full, Nat.sub_self, List.replicate_zero, List.nil_append]

theorem bytesNValue_inj {size : Nat} {one two : Bytes} (fullOne : one.length = size)
    (fullTwo : two.length = size) : bytesNValue size one = bytesNValue size two ↔ one = two := by
  rw [bytesNValue, bytesNValue, rightJustified_of_full fullOne, rightJustified_of_full fullTwo,
    SszValue.vector.injEq]

theorem uint64Value_inj {one two : Nat} (smallOne : one < 2 ^ 64) (smallTwo : two < 2 ^ 64) :
    uint64Value one = uint64Value two ↔ one = two := by
  have whole : 2 ^ 64 ≤ 256 ^ uint64Size := by decide
  rw [uint64Value, uint64Value, SszValue.vector.injEq]
  exact ⟨littleEndian_injective (Nat.lt_of_lt_of_le smallOne whole)
    (Nat.lt_of_lt_of_le smallTwo whole), congrArg _⟩

theorem goInt_inj {one two : GoInt} : uint64Value one.val = uint64Value two.val ↔ one = two := by
  have whole : 2 ^ 63 < 2 ^ 64 := by decide
  rw [uint64Value_inj (Nat.lt_trans one.property whole) (Nat.lt_trans two.property whole),
    Subtype.val_inj]

theorem boolValue_inj {one two : Bool} : boolValue one = boolValue two ↔ one = two := by
  cases one <;> cases two <;> simp [boolValue]

/-- Blocks of one width are read back. -/
theorem flatMap_littleEndian_inj {size : Nat} : ∀ {one two : List Nat},
    one.length = two.length → (∀ value ∈ one, value < 256 ^ size) →
      (∀ value ∈ two, value < 256 ^ size) →
      one.flatMap (littleEndian size) = two.flatMap (littleEndian size) → one = two
  | [], [], _, _, _, _ => rfl
  | [], _ :: _, lengths, _, _, _ => by cases lengths
  | _ :: _, [], lengths, _, _, _ => by cases lengths
  | first :: one, second :: two, lengths, smallOne, smallTwo, equal => by
      obtain ⟨hereOne, laterOne⟩ := List.forall_mem_cons.mp smallOne
      obtain ⟨hereTwo, laterTwo⟩ := List.forall_mem_cons.mp smallTwo
      rw [List.flatMap_cons, List.flatMap_cons] at equal
      obtain ⟨blocks, others⟩ := List.append_inj equal (by simp)
      rw [littleEndian_injective hereOne hereTwo blocks,
        flatMap_littleEndian_inj (Nat.succ.inj lengths) laterOne laterTwo others]

theorem amounts_inj {one two : Definition} :
    uint64ListValue maxDepositAmounts one.amounts = uint64ListValue maxDepositAmounts two.amounts ↔
      one.depositAmounts = two.depositAmounts := by
  have small : ∀ definition : Definition, ∀ value ∈ definition.amounts, value < 256 ^ uint64Size := by
    intro definition value member
    obtain ⟨amount, -, rfl⟩ := List.mem_map.mp member
    exact amount.property
  constructor
  · intro equal
    obtain ⟨-, counts, blocks⟩ := SszValue.packed.inj equal
    have values := flatMap_littleEndian_inj counts (small one) (small two) blocks
    exact (List.map_injective_iff.mpr Subtype.val_injective) values
  · intro equal
    rw [Definition.amounts, Definition.amounts, equal]

/-! ## Lists of fields -/

section Lists

variable {α β γ : Type}

/-- Two ways to tell the items of two lists apart that agree tell the lists apart alike. -/
theorem map_eq_map_congr {first : α → β} {second : α → γ} : ∀ {one two : List α},
    (∀ item ∈ one, ∀ other ∈ two, first item = first other ↔ second item = second other) →
      (one.map first = two.map first ↔ one.map second = two.map second)
  | [], [], _ => ⟨fun _ => rfl, fun _ => rfl⟩
  | [], _ :: _, _ => by simp
  | _ :: _, [], _ => by simp
  | item :: one, other :: two, same => by
      have later := @map_eq_map_congr first second one two fun item inOne other inTwo =>
        same item (List.mem_cons_of_mem _ inOne) other (List.mem_cons_of_mem _ inTwo)
      rw [List.map_cons, List.map_cons, List.map_cons, List.map_cons, List.cons.injEq,
        List.cons.injEq, later, same item List.mem_cons_self other List.mem_cons_self]

/-- A value that tells the items apart tells the lists apart. -/
theorem map_eq_map_iff {value : α → β} {one two : List α}
    (same : ∀ item ∈ one, ∀ other ∈ two, value item = value other ↔ item = other) :
    one.map value = two.map value ↔ one = two := by
  have items := @map_eq_map_congr α β α value id one two same
  rwa [List.map_id, List.map_id] at items

theorem map_pair_eq_iff {first : α → β} {second : α → γ} {one two : List α} :
    (one.map fun item => (first item, second item)) =
        two.map (fun item => (first item, second item)) ↔
      one.map first = two.map first ∧ one.map second = two.map second := by
  constructor
  · intro equal
    have firsts := congrArg (List.map Prod.fst) equal
    have seconds := congrArg (List.map Prod.snd) equal
    simp only [List.map_map] at firsts seconds
    exact ⟨firsts, seconds⟩
  · rintro ⟨firsts, seconds⟩
    rw [← List.zip_map', ← List.zip_map', firsts, seconds]

end Lists

/-! ## Addresses and operators -/

/-- The bytes an address stands for; an empty one counts as the zero address. -/
def decodedAddress (address : String) : Option Bytes :=
  match decodeAddress address with
  | .ok [] => some (List.replicate addressLength 0)
  | .ok raw => some raw
  | .error _ => none

theorem decodedAddress_eq {address : String} (fits : AddressFits address) :
    decodedAddress address = some (rightJustified addressLength (addressBytes address)) := by
  unfold decodedAddress
  rw [(decodeAddress_yields address).returns fits]
  by_cases empty : address = ""
  · rw [addressBytes, if_pos empty]
    rfl
  · have width : (addressBytes address).length = addressLength := by
      rw [addressBytes, if_neg empty]
      exact (fits.resolve_left empty).2
    match bytes : addressBytes address, width with
    | _ :: _, width => rw [rightJustified_of_full width]

theorem addressValue_inj {one two : String} (fitsOne : AddressFits one)
    (fitsTwo : AddressFits two) :
    addressValue one = addressValue two ↔ decodedAddress one = decodedAddress two := by
  rw [decodedAddress_eq fitsOne, decodedAddress_eq fitsTwo, Option.some.injEq]
  exact SszValue.vector.injEq _ _ ▸ Iff.rfl

/-- The fields of an operator that only full hashes visit. -/
def Operator.signedFields (operator : Operator) : String × Bytes × Bytes :=
  (operator.enr, operator.configSignature, operator.enrSignature)

/-- The signatures of an operator have their full length. -/
structure Operator.FullLength (operator : Operator) : Prop where
  configSignature : operator.configSignature.length = k1SignatureLength
  enrSignature : operator.enrSignature.length = k1SignatureLength

theorem operatorValue_inj {configOnly : Bool} {one two : Operator}
    (fitsOne : OperatorFits configOnly one) (fitsTwo : OperatorFits configOnly two)
    (fullOne : one.FullLength) (fullTwo : two.FullLength) :
    operatorValue configOnly one = operatorValue configOnly two ↔
      decodedAddress one.address = decodedAddress two.address ∧
        (configOnly = false → one.signedFields = two.signedFields) := by
  have address := addressValue_inj fitsOne.address fitsTwo.address
  have configSignature := bytesNValue_inj fullOne.configSignature fullTwo.configSignature
  have enrSignature := bytesNValue_inj fullOne.enrSignature fullTwo.enrSignature
  cases configOnly with
  | true => simp [operatorValue, address]
  | false =>
      simp [operatorValue, address, utf8_value_inj, configSignature, enrSignature,
        Operator.signedFields]

theorem operators_inj {configOnly : Bool} {one two : List Operator}
    (fitsOne : ∀ operator ∈ one, OperatorFits configOnly operator)
    (fitsTwo : ∀ operator ∈ two, OperatorFits configOnly operator)
    (fullOne : ∀ operator ∈ one, operator.FullLength)
    (fullTwo : ∀ operator ∈ two, operator.FullLength) :
    one.map (operatorValue configOnly) = two.map (operatorValue configOnly) ↔
      one.map (fun operator => decodedAddress operator.address) =
          two.map (fun operator => decodedAddress operator.address) ∧
        (configOnly = false → one.map Operator.signedFields = two.map Operator.signedFields) := by
  have each : ∀ first ∈ one, ∀ second ∈ two, operatorValue configOnly first =
      operatorValue configOnly second ↔
        decodedAddress first.address = decodedAddress second.address ∧
          (configOnly = false → first.signedFields = second.signedFields) :=
    fun first inOne second inTwo => operatorValue_inj (fitsOne first inOne)
      (fitsTwo second inTwo) (fullOne first inOne) (fullTwo second inTwo)
  cases configOnly with
  | true =>
      simp only [Bool.true_eq_false, false_implies, and_true] at each ⊢
      exact map_eq_map_congr each
  | false =>
      simp only [true_implies, ← Prod.mk.injEq] at each
      simp only [true_implies, ← map_pair_eq_iff]
      exact map_eq_map_congr each

/-! ## Definitions -/

/-- The fixed-size fields of a definition have their declared length. -/
structure Definition.FullLength (definition : Definition) : Prop where
  forkVersion : definition.forkVersion.length = forkVersionLength
  operators : ∀ operator ∈ definition.operators, operator.FullLength
  creator : definition.creator.configSignature.length = k1SignatureLength
  configHash : definition.configHash.length = hashLength

/-- Two definitions agree on the configuration, addresses being compared as bytes. -/
structure SameConfig (one two : Definition) : Prop where
  uuid : one.uuid = two.uuid
  name : one.name = two.name
  version : one.version = two.version
  timestamp : one.timestamp = two.timestamp
  numValidators : one.numValidators = two.numValidators
  threshold : one.threshold = two.threshold
  dkgAlgorithm : one.dkgAlgorithm = two.dkgAlgorithm
  forkVersion : one.forkVersion = two.forkVersion
  operators : one.operators.map (fun operator => decodedAddress operator.address) =
    two.operators.map fun operator => decodedAddress operator.address
  creator : decodedAddress one.creator.address = decodedAddress two.creator.address
  validatorAddresses :
    one.validatorAddresses.map (fun addresses =>
        (decodedAddress addresses.feeRecipientAddress,
          decodedAddress addresses.withdrawalAddress)) =
      two.validatorAddresses.map fun addresses =>
        (decodedAddress addresses.feeRecipientAddress, decodedAddress addresses.withdrawalAddress)
  depositAmounts : one.depositAmounts = two.depositAmounts
  consensusProtocol : one.consensusProtocol = two.consensusProtocol
  targetGasLimit : one.targetGasLimit = two.targetGasLimit
  compounding : one.compounding = two.compounding

/-- Two definitions agree on what the config hash leaves out. -/
structure SameSignatures (one two : Definition) : Prop where
  operators : one.operators.map Operator.signedFields = two.operators.map Operator.signedFields
  creator : one.creator.configSignature = two.creator.configSignature
  configHash : one.configHash = two.configHash

theorem creatorValue_inj {configOnly : Bool} {one two : Creator} (fitsOne : AddressFits one.address)
    (fitsTwo : AddressFits two.address) (fullOne : one.configSignature.length = k1SignatureLength)
    (fullTwo : two.configSignature.length = k1SignatureLength) :
    creatorValue configOnly one = creatorValue configOnly two ↔
      decodedAddress one.address = decodedAddress two.address ∧
        (configOnly = false → one.configSignature = two.configSignature) := by
  have address := addressValue_inj fitsOne fitsTwo
  have configSignature := bytesNValue_inj fullOne fullTwo
  cases configOnly with
  | true => simp [creatorValue, address]
  | false => simp [creatorValue, address, configSignature]

theorem addresses_inj {one two : List ValidatorAddresses}
    (fitsOne : ∀ addresses ∈ one, AddressesFit addresses)
    (fitsTwo : ∀ addresses ∈ two, AddressesFit addresses) :
    one.map addressesValue = two.map addressesValue ↔
      one.map (fun addresses => (decodedAddress addresses.feeRecipientAddress,
          decodedAddress addresses.withdrawalAddress)) =
        two.map fun addresses => (decodedAddress addresses.feeRecipientAddress,
          decodedAddress addresses.withdrawalAddress) := by
  refine map_eq_map_congr fun first inOne second inTwo => ?_
  have recipient := addressValue_inj (fitsOne first inOne).feeRecipientAddress
    (fitsTwo second inTwo).feeRecipientAddress
  have withdrawal := addressValue_inj (fitsOne first inOne).withdrawalAddress
    (fitsTwo second inTwo).withdrawalAddress
  simp [addressesValue, recipient, withdrawal]

theorem definitionValue_inj {configOnly : Bool} {one two : Definition}
    (fitsOne : DefinitionFits configOnly one) (fitsTwo : DefinitionFits configOnly two)
    (fullOne : one.FullLength) (fullTwo : two.FullLength) :
    definitionValue configOnly one = definitionValue configOnly two ↔
      SameConfig one two ∧ (configOnly = false → SameSignatures one two) := by
  have forkVersion := bytesNValue_inj fullOne.forkVersion fullTwo.forkVersion
  have operators := operators_inj fitsOne.operators fitsTwo.operators fullOne.operators
    fullTwo.operators
  have creator := @creatorValue_inj configOnly _ _ fitsOne.creator fitsTwo.creator fullOne.creator
    fullTwo.creator
  have addresses := addresses_inj fitsOne.validatorAddresses fitsTwo.validatorAddresses
  have configHash := bytesNValue_inj fullOne.configHash fullTwo.configHash
  have stored : (if configOnly then [] else [bytesNValue hashLength one.configHash]) =
      (if configOnly then [] else [bytesNValue hashLength two.configHash]) ↔
        (configOnly = false → one.configHash = two.configHash) := by
    cases configOnly with
    | true => simp
    | false => simp [configHash]
  simp only [definitionValue, SszValue.container.injEq, SszValue.list.injEq, List.cons_append,
    List.nil_append, List.cons.injEq, true_and, utf8_value_inj, goInt_inj, boolValue_inj,
    amounts_inj, forkVersion, operators, creator, addresses, stored]
  constructor
  · rintro ⟨uuid, name, version, timestamp, numValidators, threshold, algorithm, fork,
      ⟨operatorAddresses, operatorFields⟩, ⟨creatorAddress, creatorSignature⟩, addressPairs,
      amounts, protocol, gasLimit, compounding, hash⟩
    exact ⟨⟨uuid, name, version, timestamp, numValidators, threshold, algorithm, fork,
      operatorAddresses, creatorAddress, addressPairs, amounts, protocol, gasLimit, compounding⟩,
      fun full => ⟨operatorFields full, creatorSignature full, hash full⟩⟩
  · rintro ⟨config, signatures⟩
    exact ⟨config.uuid, config.name, config.version, config.timestamp, config.numValidators,
      config.threshold, config.dkgAlgorithm, config.forkVersion,
      ⟨config.operators, fun full => (signatures full).operators⟩,
      ⟨config.creator, fun full => (signatures full).creator⟩, config.validatorAddresses,
      config.depositAmounts, config.consensusProtocol, config.targetGasLimit, config.compounding,
      fun full => (signatures full).configHash⟩

theorem alike_address {one two : String} (fitsOne : AddressFits one) (fitsTwo : AddressFits two) :
    Alike (addressValue one) (addressValue two) :=
  alike_bytesN (length_addressBytes fitsOne) (length_addressBytes fitsTwo)

theorem alike_operator {configOnly : Bool} {one two : Operator}
    (fitsOne : OperatorFits configOnly one) (fitsTwo : OperatorFits configOnly two) :
    Alike (operatorValue configOnly one) (operatorValue configOnly two) :=
  ⟨alike_address fitsOne.address fitsTwo.address, allAlike_skippable fun full =>
    ⟨alike_byteList (by decide) (fitsOne.enr full) (fitsTwo.enr full),
      alike_bytesN (fitsOne.configSignature full) (fitsTwo.configSignature full),
      alike_bytesN (fitsOne.enrSignature full) (fitsTwo.enrSignature full), trivial⟩⟩

theorem alike_addresses {one two : ValidatorAddresses} (fitsOne : AddressesFit one)
    (fitsTwo : AddressesFit two) : Alike (addressesValue one) (addressesValue two) :=
  ⟨alike_address fitsOne.feeRecipientAddress fitsTwo.feeRecipientAddress,
    alike_address fitsOne.withdrawalAddress fitsTwo.withdrawalAddress, trivial⟩

/-- Definitions of one walk have values of one type. -/
theorem alike_definition {configOnly : Bool} {one two : Definition}
    (fitsOne : DefinitionFits configOnly one) (fitsTwo : DefinitionFits configOnly two) :
    Alike (definitionValue configOnly one) (definitionValue configOnly two) := by
  have operators := alike_list (show maxOperators < 2 ^ 64 by decide) fitsOne.operators_length
    fitsTwo.operators_length fun first inOne second inTwo =>
      alike_operator (fitsOne.operators first inOne) (fitsTwo.operators second inTwo)
  have creator : Alike (creatorValue configOnly one.creator) (creatorValue configOnly two.creator) :=
    ⟨alike_address fitsOne.creator fitsTwo.creator, allAlike_skippable fun full =>
      ⟨alike_bytesN (fitsOne.creator_configSignature full) (fitsTwo.creator_configSignature full),
        trivial⟩⟩
  have addresses := alike_list (show maxValidators < 2 ^ 64 by decide)
    fitsOne.validatorAddresses_length fitsTwo.validatorAddresses_length
    fun first inOne second inTwo => alike_addresses (fitsOne.validatorAddresses first inOne)
      (fitsTwo.validatorAddresses second inTwo)
  have amounts : ∀ definition : Definition, definition.depositAmounts.length ≤ maxDepositAmounts →
      definition.amounts.length ≤ maxDepositAmounts := by
    intro definition fits
    rwa [Definition.amounts, List.length_map]
  have stored : AllAlike (if configOnly then [] else [bytesNValue hashLength one.configHash])
      (if configOnly then [] else [bytesNValue hashLength two.configHash]) :=
    allAlike_skippable fun full =>
      ⟨alike_bytesN (fitsOne.configHash full) (fitsTwo.configHash full), trivial⟩
  exact ⟨alike_byteList (by decide) fitsOne.uuid fitsTwo.uuid,
    alike_byteList (by decide) fitsOne.name fitsTwo.name,
    alike_byteList (by decide) fitsOne.version fitsTwo.version,
    alike_byteList (by decide) fitsOne.timestamp fitsTwo.timestamp,
    alike_uint64 _ _, alike_uint64 _ _,
    alike_byteList (by decide) fitsOne.dkgAlgorithm fitsTwo.dkgAlgorithm,
    alike_bytesN fitsOne.forkVersion fitsTwo.forkVersion, operators, creator, addresses,
    alike_uint64List (by decide) (amounts one fitsOne.depositAmounts_length)
      (amounts two fitsTwo.depositAmounts_length),
    alike_byteList (by decide) fitsOne.consensusProtocol fitsTwo.consensusProtocol,
    alike_uint64 _ _, alike_bool _ _, stored⟩

/-- The inputs of SHA-256 for the hash of a definition. -/
def definitionInputs (sha256 : Bytes → Bytes) (configOnly : Bool) (definition : Definition) :
    List Bytes :=
  inputs sha256 (definitionValue configOnly definition)

section Binding

variable {sha256 : Bytes → Bytes} (digest : ∀ data, (sha256 data).length = 32)

include digest

theorem definitionRoot_inj {configOnly : Bool} {one two : Definition}
    (fitsOne : DefinitionFits configOnly one) (fitsTwo : DefinitionFits configOnly two)
    (fullOne : one.FullLength) (fullTwo : two.FullLength)
    (free : CollisionFree sha256
      (definitionInputs sha256 configOnly one ++ definitionInputs sha256 configOnly two)) :
    (definitionValue configOnly one).root sha256 = (definitionValue configOnly two).root sha256 ↔
      SameConfig one two ∧ (configOnly = false → SameSignatures one two) := by
  rw [← definitionValue_inj fitsOne fitsTwo fullOne fullTwo]
  exact ⟨eq_of_root_eq digest _ _ (alike_definition fitsOne fitsTwo) free, congrArg _⟩

omit digest in
/-- The config walk reads nothing of an operator but its address. -/
theorem putOperator_config {one two : Operator} (same : one.address = two.address)
    (walker : HashWalker) :
    putOperator sha256 true walker one = putOperator sha256 true walker two := by
  simp only [putOperator, same, if_true]

/-- Config hashes of definitions with full-length fields are equal iff the configurations
agree, and definition hashes iff the signatures and the stored config hash agree as well,
SHA-256 being injective on the inputs hashed; ENRs, signatures and stored hashes have no
influence on the config hash. -/
theorem definitionHashes_binding {one two : Definition} (fullOne : one.FullLength)
    (fullTwo : two.FullLength) :
    (∀ first second, configHash sha256 one = .ok first → configHash sha256 two = .ok second →
        CollisionFree sha256 (definitionInputs sha256 true one ++ definitionInputs sha256 true two) →
          (first = second ↔ SameConfig one two)) ∧
      (∀ first second, definitionHash sha256 one = .ok first →
        definitionHash sha256 two = .ok second →
        CollisionFree sha256
            (definitionInputs sha256 false one ++ definitionInputs sha256 false two) →
          (first = second ↔ SameConfig one two ∧ SameSignatures one two)) ∧
      ∀ operators creator stored storedDefinition,
        operators.map Operator.address = one.operators.map Operator.address →
        creator.address = one.creator.address →
          configHash sha256 { one with
              operators := operators
              creator := creator
              configHash := stored
              definitionHash := storedDefinition } = configHash sha256 one := by
  refine ⟨?_, ?_, ?_⟩
  · intro first second hashOne hashTwo free
    obtain ⟨fitsOne, rfl⟩ := (configHash_yields digest one).eq_ok_iff.mp hashOne
    obtain ⟨fitsTwo, rfl⟩ := (configHash_yields digest two).eq_ok_iff.mp hashTwo
    exact (definitionRoot_inj digest fitsOne fitsTwo fullOne fullTwo free).trans (by simp)
  · intro first second hashOne hashTwo free
    obtain ⟨fitsOne, rfl⟩ := (definitionHash_yields digest one).eq_ok_iff.mp hashOne
    obtain ⟨fitsTwo, rfl⟩ := (definitionHash_yields digest two).eq_ok_iff.mp hashTwo
    exact (definitionRoot_inj digest fitsOne fitsTwo fullOne fullTwo free).trans (by simp)
  · intro operators creator stored storedDefinition addresses creatorAddress
    have loop := @foldlM_eq_of_map_eq _ _ _ _ (putOperator sha256 true) Operator.address
      (fun walker item other same => putOperator_config same walker) _ _ addresses
    have lengths : operators.length = one.operators.length := by
      rw [← List.length_map Operator.address, addresses, List.length_map]
    simp only [configHash, hashDefinitionV1x10, loop, lengths, creatorAddress, if_true]

end Binding

/-! ## Two definitions with different thresholds -/

theorem fullLength_pair (threshold : GoInt) : (pairDefinition threshold).FullLength where
  forkVersion := rfl
  operators := by
    have full : pairOperator.FullLength := ⟨List.length_replicate, List.length_replicate⟩
    exact List.forall_mem_cons.mpr ⟨full, List.forall_mem_singleton.mpr full⟩
  creator := List.length_replicate
  configHash := List.length_replicate

/-- The value of a definition with another threshold. -/
def withThreshold (threshold : Nat) : SszValue → SszValue
  | .container members => .container (members.set 5 (uint64Value threshold))
  | other => other

theorem definitionValue_pair (configOnly : Bool) (threshold : GoInt) :
    definitionValue configOnly (pairDefinition threshold) = withThreshold threshold.val
      (definitionValue configOnly (pairDefinition ⟨1, by decide⟩)) := rfl

/-- The value of a lock, its parts shared between thresholds. -/
def pairValue (shared : GoInt) (threshold : Nat) : SszValue :=
  .container [withThreshold threshold (definitionValue false (pairDefinition shared)),
    .list maxValidators [validatorValue pairValidator]]

theorem lockValue_pair (shared threshold : GoInt) :
    lockValue (pairLock threshold) = pairValue shared threshold.val := rfl

/-- SHA-256 has no collision among the inputs of two config hashes. -/
theorem collisionFree_configs : CollisionFree Sha256.sha256
    (definitionInputs Sha256.sha256 true (pairDefinition ⟨1, by decide⟩) ++
      definitionInputs Sha256.sha256 true (pairDefinition ⟨2, by decide⟩)) := by
  rw [definitionInputs, definitionInputs, definitionValue_pair true ⟨2, by decide⟩]
  exact collisionFree_of_apart (by decide +kernel)

/-- SHA-256 has no collision among the inputs of two lock hashes. -/
theorem collisionFree_locks : CollisionFree Sha256.sha256
    (inputs Sha256.sha256 (lockValue (pairLock ⟨1, by decide⟩)) ++
      inputs Sha256.sha256 (lockValue (pairLock ⟨2, by decide⟩))) := by
  rw [lockValue_pair ⟨1, by decide⟩, lockValue_pair ⟨1, by decide⟩ ⟨2, by decide⟩]
  exact collisionFree_of_apart (by decide +kernel)

/-- The hashed definition is part of the hashed lock. -/
theorem definitionInputs_subset (sha256 : Bytes → Bytes) (lock : Lock) :
    definitionInputs sha256 false lock.definition ⊆ inputs sha256 (lockValue lock) := by
  intro input member
  rw [lockValue, inputs, allInputs]
  exact List.mem_append_right _ (List.mem_append_left _ member)

/-- Definitions with different thresholds have different hashes. -/
theorem definitionHashes_binding_thresholds :
    (configHash Sha256.sha256 (pairDefinition ⟨1, by decide⟩) ≠
        configHash Sha256.sha256 (pairDefinition ⟨2, by decide⟩)) ∧
      definitionHash Sha256.sha256 (pairDefinition ⟨1, by decide⟩) ≠
        definitionHash Sha256.sha256 (pairDefinition ⟨2, by decide⟩) := by
  have binding := definitionHashes_binding Sha256.length_sha256
    (fullLength_pair ⟨1, by decide⟩) (fullLength_pair ⟨2, by decide⟩)
  constructor
  · intro equal
    have hashed := (configHash_yields Sha256.length_sha256 _).returns
      (definitionFits_pair true ⟨1, by decide⟩)
    have same := (binding.1 _ _ hashed (equal ▸ hashed) collisionFree_configs).mp rfl
    exact absurd same.threshold (by decide)
  · intro equal
    have hashed := (definitionHash_yields Sha256.length_sha256 _).returns
      (definitionFits_pair false ⟨1, by decide⟩)
    have first := definitionInputs_subset Sha256.sha256 (pairLock ⟨1, by decide⟩)
    have second := definitionInputs_subset Sha256.sha256 (pairLock ⟨2, by decide⟩)
    have included := List.append_subset.mpr
      ⟨List.Subset.trans first (List.subset_append_left _ _),
        List.Subset.trans second (List.subset_append_right _ _)⟩
    have same := (binding.2.1 _ _ hashed (equal ▸ hashed) (collisionFree_locks.mono included)).mp rfl
    exact absurd same.1.threshold (by decide)

/-! ## Validators -/

structure DepositData.FullLength (deposit : DepositData) : Prop where
  pubkey : deposit.pubkey.length = pubkeyLength
  withdrawalCredentials : deposit.withdrawalCredentials.length = withdrawalCredentialsLength
  signature : deposit.signature.length = blsSignatureLength

structure BuilderRegistration.FullLength (registration : BuilderRegistration) : Prop where
  feeRecipient : registration.message.feeRecipient.length = addressLength
  pubkey : registration.message.pubkey.length = pubkeyLength
  signature : registration.signature.length = blsSignatureLength

/-- The fixed-size fields of a validator have their declared length. -/
structure DistValidator.FullLength (validator : DistValidator) : Prop where
  pubkey : validator.pubkey.length = pubkeyLength
  pubshares : ∀ pubshare ∈ validator.pubshares, pubshare.length = pubkeyLength
  partialDepositData : ∀ deposit ∈ validator.partialDepositData, deposit.FullLength
  builderRegistration : validator.builderRegistration.FullLength

theorem depositValue_inj {one two : DepositData} (fullOne : one.FullLength)
    (fullTwo : two.FullLength) : depositValue one = depositValue two ↔ one = two := by
  have pubkey := bytesNValue_inj fullOne.pubkey fullTwo.pubkey
  have credentials := bytesNValue_inj fullOne.withdrawalCredentials fullTwo.withdrawalCredentials
  have amount := uint64Value_inj one.amount.property two.amount.property
  have signature := bytesNValue_inj fullOne.signature fullTwo.signature
  simp only [depositValue, SszValue.container.injEq, List.cons.injEq, pubkey, credentials, amount,
    signature, Subtype.val_inj, and_true, DepositData.ext_iff]

theorem bytesValues_of_full {size : Nat} (positive : 0 < size) {data : Bytes}
    (full : data.length = size) : bytesValues data = [.vector data] := by
  refine if_neg ?_
  rintro rfl
  exact absurd full (Nat.ne_of_lt positive)

theorem builderRegistrationValue_inj {one two : BuilderRegistration} (fullOne : one.FullLength)
    (fullTwo : two.FullLength) :
    builderRegistrationValue one = builderRegistrationValue two ↔ one = two := by
  have recipientOne := bytesValues_of_full (by decide) fullOne.feeRecipient
  have recipientTwo := bytesValues_of_full (by decide) fullTwo.feeRecipient
  have pubkey := bytesNValue_inj fullOne.pubkey fullTwo.pubkey
  have signature := bytesNValue_inj fullOne.signature fullTwo.signature
  simp only [builderRegistrationValue, registrationValue, recipientOne, recipientTwo,
    SszValue.container.injEq, SszValue.vector.injEq, List.cons_append, List.nil_append,
    List.cons.injEq, goInt_inj, pubkey, signature, and_true, BuilderRegistration.ext_iff,
    Registration.ext_iff]

theorem validatorValue_inj {one two : DistValidator} (fullOne : one.FullLength)
    (fullTwo : two.FullLength) : validatorValue one = validatorValue two ↔ one = two := by
  have pubkey := bytesNValue_inj fullOne.pubkey fullTwo.pubkey
  have pubshares := map_eq_map_iff fun first inOne second inTwo =>
    bytesNValue_inj (fullOne.pubshares first inOne) (fullTwo.pubshares second inTwo)
  have deposits := @map_eq_map_iff _ _ (fun deposit => SszValue.container [depositValue deposit])
    one.partialDepositData two.partialDepositData fun first inOne second inTwo => by
      have deposit := depositValue_inj (fullOne.partialDepositData first inOne)
        (fullTwo.partialDepositData second inTwo)
      simp only [SszValue.container.injEq, List.cons.injEq, deposit, and_true]
  have registration :=
    builderRegistrationValue_inj fullOne.builderRegistration fullTwo.builderRegistration
  simp only [validatorValue, SszValue.container.injEq, SszValue.list.injEq, List.cons.injEq,
    pubkey, pubshares, deposits, registration, true_and, and_true, DistValidator.ext_iff]

theorem alike_deposit {one two : DepositData} (fitsOne : DepositFits one)
    (fitsTwo : DepositFits two) :
    Alike (.container [depositValue one]) (.container [depositValue two]) :=
  ⟨⟨alike_bytesN fitsOne.pubkey fitsTwo.pubkey,
    alike_bytesN fitsOne.withdrawalCredentials fitsTwo.withdrawalCredentials, alike_uint64 _ _,
    alike_bytesN fitsOne.signature fitsTwo.signature, trivial⟩, trivial⟩

theorem alike_builderRegistration {one two : BuilderRegistration} (fullOne : one.FullLength)
    (fullTwo : two.FullLength) :
    Alike (builderRegistrationValue one) (builderRegistrationValue two) := by
  have pubkey := alike_bytesN (Nat.le_of_eq fullOne.pubkey) (Nat.le_of_eq fullTwo.pubkey)
  have signature := alike_bytesN (Nat.le_of_eq fullOne.signature) (Nat.le_of_eq fullTwo.signature)
  rw [builderRegistrationValue, builderRegistrationValue, registrationValue, registrationValue,
    bytesValues_of_full (by decide) fullOne.feeRecipient,
    bytesValues_of_full (by decide) fullTwo.feeRecipient]
  exact ⟨⟨fullOne.feeRecipient.trans fullTwo.feeRecipient.symm, alike_uint64 _ _, alike_uint64 _ _,
    pubkey, trivial⟩, signature, trivial⟩

theorem alike_validator {one two : DistValidator} (fitsOne : ValidatorFits one)
    (fitsTwo : ValidatorFits two) (fullOne : one.FullLength) (fullTwo : two.FullLength) :
    Alike (validatorValue one) (validatorValue two) := by
  have pubshares := alike_list (show maxOperators < 2 ^ 64 by decide) fitsOne.pubshares_length
    fitsTwo.pubshares_length fun first inOne second inTwo =>
      alike_bytesN (fitsOne.pubshares first inOne) (fitsTwo.pubshares second inTwo)
  have deposits := alike_list (show maxDepositAmounts < 2 ^ 64 by decide)
    fitsOne.partialDepositData_length fitsTwo.partialDepositData_length
    fun first inOne second inTwo => alike_deposit (fitsOne.partialDepositData first inOne)
      (fitsTwo.partialDepositData second inTwo)
  exact ⟨alike_bytesN fitsOne.pubkey fitsTwo.pubkey, pubshares, deposits,
    alike_builderRegistration fullOne.builderRegistration fullTwo.builderRegistration, trivial⟩

/-! ## Locks -/

/-- The fixed-size fields of a lock have their declared length. -/
structure Lock.FullLength (lock : Lock) : Prop where
  definition : lock.definition.FullLength
  validators : ∀ validator ∈ lock.validators, validator.FullLength

theorem Lock.FullLength.addressable {lock : Lock} (full : lock.FullLength) : Addressable lock := by
  intro validator member
  rw [(full.validators validator member).builderRegistration.feeRecipient]
  decide

/-- The inputs of SHA-256 for the hash of a lock. -/
def lockInputs (sha256 : Bytes → Bytes) (lock : Lock) : List Bytes :=
  inputs sha256 (lockValue lock)

theorem lockValue_inj {one two : Lock} (fitsOne : LockFits one) (fitsTwo : LockFits two)
    (fullOne : one.FullLength) (fullTwo : two.FullLength) :
    lockValue one = lockValue two ↔
      (SameConfig one.definition two.definition ∧ SameSignatures one.definition two.definition) ∧
        one.validators = two.validators := by
  have definition := definitionValue_inj fitsOne.definition fitsTwo.definition fullOne.definition
    fullTwo.definition
  have validators := map_eq_map_iff fun first inOne second inTwo =>
    validatorValue_inj (fullOne.validators first inOne) (fullTwo.validators second inTwo)
  simp only [lockValue, SszValue.container.injEq, SszValue.list.injEq, List.cons.injEq, definition,
    validators, true_implies, true_and, and_true]

theorem alike_lock {one two : Lock} (fitsOne : LockFits one) (fitsTwo : LockFits two)
    (fullOne : one.FullLength) (fullTwo : two.FullLength) :
    Alike (lockValue one) (lockValue two) := by
  have validators := alike_list (show maxValidators < 2 ^ 64 by decide) fitsOne.validators_length
    fitsTwo.validators_length fun first inOne second inTwo =>
      alike_validator (fitsOne.validators first inOne) (fitsTwo.validators second inTwo)
        (fullOne.validators first inOne) (fullTwo.validators second inTwo)
  exact ⟨alike_definition fitsOne.definition fitsTwo.definition, validators, trivial⟩

/-- Lock hashes of locks with full-length fields are equal iff the definitions agree on what
the definition hash covers and the validators are equal, SHA-256 being injective on the inputs
hashed; stored hashes of the lock and its definition and the attestations have no influence. -/
theorem lockHash_binding {sha256 : Bytes → Bytes} (digest : ∀ data, (sha256 data).length = 32)
    {one two : Lock} (fullOne : one.FullLength) (fullTwo : two.FullLength) :
    (∀ first second, lockHash sha256 one = .ok first → lockHash sha256 two = .ok second →
        CollisionFree sha256 (lockInputs sha256 one ++ lockInputs sha256 two) →
          (first = second ↔ (SameConfig one.definition two.definition ∧
            SameSignatures one.definition two.definition) ∧ one.validators = two.validators)) ∧
      ∀ storedLock aggregate signatures storedDefinition,
        lockHash sha256 { one with
            definition := { one.definition with definitionHash := storedDefinition }
            lockHash := storedLock
            signatureAggregate := aggregate
            nodeSignatures := signatures } = lockHash sha256 one := by
  constructor
  · intro first second hashOne hashTwo free
    obtain ⟨fitsOne, rfl⟩ := (lockHash_yields digest one fullOne.addressable).eq_ok_iff.mp hashOne
    obtain ⟨fitsTwo, rfl⟩ := (lockHash_yields digest two fullTwo.addressable).eq_ok_iff.mp hashTwo
    rw [← lockValue_inj fitsOne fitsTwo fullOne fullTwo]
    exact ⟨eq_of_root_eq digest _ _ (alike_lock fitsOne fitsTwo fullOne fullTwo) free, congrArg _⟩
  · intro storedLock aggregate signatures storedDefinition
    rfl

theorem fullLength_pairLock (threshold : GoInt) : (pairLock threshold).FullLength where
  definition := fullLength_pair threshold
  validators := List.forall_mem_singleton.mpr
    { pubkey := List.length_replicate
      pubshares := List.forall_mem_cons.mpr
        ⟨List.length_replicate, List.forall_mem_singleton.mpr List.length_replicate⟩
      partialDepositData := List.forall_mem_singleton.mpr
        ⟨List.length_replicate, List.length_replicate, List.length_replicate⟩
      builderRegistration :=
        ⟨List.length_replicate, List.length_replicate, List.length_replicate⟩ }

/-- Locks of definitions with different thresholds have different hashes. -/
theorem lockHash_binding_thresholds :
    lockHash Sha256.sha256 (pairLock ⟨1, by decide⟩) ≠
      lockHash Sha256.sha256 (pairLock ⟨2, by decide⟩) := by
  intro equal
  have full := fullLength_pairLock ⟨1, by decide⟩
  have hashed := (lockHash_yields Sha256.length_sha256 _ full.addressable).returns
    (lockFits_pair ⟨1, by decide⟩)
  have same := ((lockHash_binding Sha256.length_sha256 full
    (fullLength_pairLock ⟨2, by decide⟩)).1 _ _ hashed (equal ▸ hashed)
      collisionFree_locks).mp rfl
  exact absurd same.1.1.threshold (by decide)

end DvSpec.Cluster
