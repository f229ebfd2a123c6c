import DvSpec.Cluster.HashBinding
import DvSpec.Cluster.VerifiedLock

/-!
# The attestations of a lock

Every key share signs the lock hash and the signatures are plainly aggregated; every
node signs it as well.  The aggregate passes only as the sum of the signatures of all
shares, a lock attested by its shares and its nodes passes every check, and neither
attestation passes with a lock of other content.
-/

namespace DvSpec.Cluster

open DvSpec.Library DvSpec.Library.Raising DvSpec.Bls DvSpec.SigAgg
open DvSpec.Bls.Scheme (totalScalar)
open DvSpec.Encoding (CollisionFree)

/-- The public shares of every validator are derived from its key shares. -/
def Derived [G2ProofOfPossession] (validators : List DistValidator)
    (keyShares : List (List Bytes)) : Prop :=
  List.Forall₂ (fun validator secrets => secrets.mapM secretToPubkey = .ok validator.pubshares)
    validators keyShares

section Shares

variable [G2ProofOfPossession]

/-- The public shares of all validators are those of all key shares. -/
theorem Derived.flatten {validators : List DistValidator} {keyShares : List (List Bytes)}
    (derived : Derived validators keyShares) :
    keyShares.flatten.mapM secretToPubkey = .ok (aggregatePubkeys validators) := by
  induction derived with
  | nil => rfl
  | cons here later ih =>
      rw [List.flatten_cons, List.mapM_append, here, ok_bind, ih]
      rfl

/-- Every secret that derives a key signs. -/
theorem signs_of_derived {secrets pubkeys : List Bytes} (message : Bytes)
    (derived : secrets.mapM secretToPubkey = .ok pubkeys) :
    ∃ signatures, secrets.mapM (fun secret => Bls.sign secret message) = .ok signatures := by
  rw [mapM_eq_ok_iff] at derived
  simp only [mapM_eq_ok_iff]
  induction derived with
  | nil => exact ⟨[], List.Forall₂.nil⟩
  | cons here later ih =>
      obtain ⟨signatures, signed⟩ := ih
      obtain ⟨number, accepted, -⟩ := bind_eq_ok_iff.mp here
      exact ⟨_, List.Forall₂.cons (bind_eq_ok_iff.mpr ⟨number, accepted, rfl⟩) signed⟩

theorem secrets_of_mem {threshold : Nat} {validators : List DistValidator}
    {keyShares : List (List Bytes)}
    (shared : List.Forall₂ (SharesKey threshold) validators keyShares) {validator : DistValidator}
    (member : validator ∈ validators) :
    ∃ secrets ∈ keyShares, SharesKey threshold validator secrets := by
  induction shared with
  | nil => cases member
  | cons here later ih =>
      rcases List.mem_cons.mp member with rfl | among
      · exact ⟨_, List.mem_cons_self, here⟩
      · obtain ⟨secrets, known, shares⟩ := ih among
        exact ⟨secrets, List.mem_cons_of_mem _ known, shares⟩

end Shares

/-! ## The aggregate -/

section Aggregate

variable [PyEcc] [G2ProofOfPossession] [AddCommGroup PyEcc.G1.Point] [AddCommGroup PyEcc.G2.Point]
variable {Target : Type} [AddCommGroup Target] {sha256 : Bytes → Bytes}

theorem verifyAggregate_iff (scheme : Scheme Target) {validators : List DistValidator}
    {keyShares : List (List Bytes)} (derived : Derived validators keyShares)
    {digest signature : Bytes} :
    verifyAggregate (aggregatePubkeys validators) digest signature = true ↔
      totalScalar keyShares.flatten ≠ 0 ∧
        scheme.SignatureOf (totalScalar keyShares.flatten) digest signature := by
  by_cases nonempty : keyShares.flatten = []
  · have none : aggregatePubkeys validators = [] := by
      have collected := derived.flatten
      rw [nonempty] at collected
      exact (Except.ok.inj collected).symm
    rw [none, verifyAggregate, scheme.fastAggregateVerify_nil, nonempty]
    exact iff_of_false Bool.false_ne_true fun passes => passes.1 rfl
  · exact scheme.verifyAggregate_of_secrets derived.flatten nonempty

/-- A nonzero scalar has equal signatures over equal hashed messages only. -/
theorem hashToG2_eq_of_signatureOf (scheme : Scheme Target) {value : ZMod blsModulus}
    (nonzero : value ≠ 0) {first second signature : Bytes}
    (one : scheme.SignatureOf value first signature)
    (two : scheme.SignatureOf value second signature) :
    scheme.hashToG2 first = scheme.hashToG2 second := by
  let scalars := scheme.g2.module
  have equal := Except.ok.inj (one.symm.trans two)
  rw [multiply_val scheme.g2, multiply_val scheme.g2] at equal
  rw [← inv_smul_smul₀ nonzero (scheme.hashToG2 first), equal, inv_smul_smul₀ nonzero]

/-- The stored aggregate passes iff it is the sum of the signatures of every key share of every
validator over the lock hash, the sum of the secrets not being zero. -/
theorem verifySignatureAggregate_exact (scheme : Scheme Target) {lock : Lock}
    {keyShares : List (List Bytes)} (derived : Derived lock.validators keyShares) {digest : Bytes}
    (hashed : lockHash sha256 lock = .ok digest) :
    ∃ accepted, verifySignatureAggregate sha256 lock = .ok accepted ∧
      (accepted = true ↔ totalScalar keyShares.flatten ≠ 0 ∧
        ∃ partials aggregated,
          keyShares.flatten.mapM (fun secret => Bls.sign secret digest) = .ok partials ∧
          Bls.aggregate partials = .ok aggregated ∧
          PyEcc.G2.decode lock.signatureAggregate = PyEcc.G2.decode aggregated) := by
  refine ⟨_, by rw [verifySignatureAggregate, hashed]; rfl, ?_⟩
  rw [verifyAggregate_iff scheme derived]
  apply and_congr_right
  intro nonzero
  have nonempty : keyShares.flatten ≠ [] := by
    intro empty
    rw [empty] at nonzero
    exact nonzero rfl
  obtain ⟨partials, signed⟩ := signs_of_derived digest derived.flatten
  have total := scheme.aggregate_of_secrets signed nonempty
  have decoded : PyEcc.G2.decode (scheme.signatureOf (totalScalar keyShares.flatten) digest) =
      .ok (PyEcc.G2.multiply (scheme.hashToG2 digest)
        (totalScalar keyShares.flatten).val) := scheme.g2.decode_encode _
  constructor
  · intro genuine
    exact ⟨partials, _, signed, total, genuine.trans decoded.symm⟩
  · rintro ⟨others, aggregated, alsoSigned, summed, same⟩
    cases signed.symm.trans alsoSigned
    cases total.symm.trans summed
    exact same.trans decoded

/-- A validator's public shares are distinct iff its key shares are. -/
theorem nodup_pubshares (scheme : Scheme Target) {validators : List DistValidator}
    {keyShares : List (List Bytes)} (derived : Derived validators keyShares) :
    (∀ validator ∈ validators, validator.pubshares.Nodup) ↔ ∀ secrets ∈ keyShares, secrets.Nodup := by
  induction derived with
  | nil => simp
  | cons here later ih =>
      have unique : Relator.BiUnique fun secret pubshare : Bytes =>
          secretToPubkey secret = .ok pubshare :=
        ⟨fun _ _ _ first second => scheme.secretToPubkey_inj first second,
          fun _ _ _ first second => Except.ok.inj (first.symm.trans second)⟩
      have first : _ ↔ _ := List.rel_nodup unique (mapM_eq_ok_iff.mp here)
      rw [List.forall_mem_cons, List.forall_mem_cons, ih, first]

end Aggregate

/-! ## An attested lock -/

/-- The stored hashes are those of the content, the validators' keys are shared, and all key
shares and all nodes have signed the lock hash. -/
structure Attested [G2ProofOfPossession] [Secp256k1.EthKeys] (sha256 : Bytes → Bytes) (lock : Lock)
    (keyShares : List (List Bytes)) (nodeKeys : List Bytes) : Prop where
  configHash : configHash sha256 lock.definition = .ok lock.definition.configHash
  definitionHash : definitionHash sha256 lock.definition = .ok lock.definition.definitionHash
  lockHash : lockHash sha256 lock = .ok lock.lockHash
  shared : List.Forall₂ (SharesKey lock.threshold) lock.validators keyShares
  aggregated : ∃ partials,
    keyShares.flatten.mapM (fun secret => Bls.sign secret lock.lockHash) = .ok partials ∧
      Bls.aggregate partials = .ok lock.signatureAggregate
  signed : nodeKeys.mapM (fun secret => Secp256k1.sign secret lock.lockHash) = .ok lock.nodeSignatures

namespace Attested

section Content

variable [G2ProofOfPossession] [Secp256k1.EthKeys] {sha256 : Bytes → Bytes} {lock : Lock}
variable {keyShares : List (List Bytes)} {nodeKeys : List Bytes}

theorem derived (attested : Attested sha256 lock keyShares nodeKeys) :
    Derived lock.validators keyShares :=
  attested.shared.imp fun _ _ shared => shared.pubshares

/-- The hash of an attested lock has 32 bytes, and it has few operators. -/
theorem sizes (attested : Attested sha256 lock keyShares nodeKeys)
    (digest : ∀ data, (sha256 data).length = 32) (addressable : Addressable lock) :
    lock.lockHash.length = hashLength ∧ lock.definition.numOperators ≤ maxOperators := by
  obtain ⟨fits, root⟩ := (lockHash_yields digest lock addressable).eq_ok_iff.mp attested.lockHash
  refine ⟨?_, fits.definition.operators_length⟩
  rw [← root]
  exact Encoding.SszValue.length_root digest _

/-- The node signatures pass with the keys of the nodes. -/
theorem nodes_verify {valid : Bytes → Prop} (node : Secp256k1.Lawful valid)
    (attested : Attested sha256 lock keyShares nodeKeys)
    (sized : lock.lockHash.length = Secp256k1.hashLength)
    (everyNode : nodeKeys.length = lock.definition.numOperators)
    (validKeys : ∀ secret ∈ nodeKeys, valid secret) {nodePubkeys : List Bytes}
    (published : nodeKeys.mapM Secp256k1.secretToPubkey = .ok nodePubkeys) :
    verifyNodeSignatures sha256 lock nodePubkeys = .ok true := by
  have signatures := (mapM_eq_ok_iff.mp attested.signed).length_eq
  have pubkeys := (mapM_eq_ok_iff.mp published).length_eq
  refine (verifyNodeSignatures_eq_ok_true_iff attested.lockHash sized).mpr
    ⟨signatures.symm.trans everyNode, pubkeys.symm.trans everyNode, ?_⟩
  intro pair member
  obtain ⟨secret, known, derives, signs⟩ :=
    exists_item_of_mem_zip published attested.signed pair member
  have usable := node.length_secret (validKeys secret known)
  obtain ⟨key, made, lawful⟩ := node.privateKey (validKeys secret known)
  rw [Secp256k1.sign_eq_ok usable made sized, Except.ok.injEq] at signs
  rw [Secp256k1.secretToPubkey_eq_ok usable made, Except.ok.injEq] at derives
  rw [← signs, ← derives]
  exact Secp256k1.recover_signMsgHash lawful sized

end Content

section Points

variable [PyEcc] [G2ProofOfPossession] [AddCommGroup PyEcc.G1.Point] [AddCommGroup PyEcc.G2.Point]
variable [Secp256k1.EthKeys] {Target : Type} [AddCommGroup Target] {sha256 : Bytes → Bytes}
variable {lock : Lock} {keyShares : List (List Bytes)} {nodeKeys : List Bytes}

theorem reconstructs (scheme : Scheme Target) (attested : Attested sha256 lock keyShares nodeKeys)
    (few : lock.definition.numOperators < blsModulus) (positive : 1 ≤ lock.threshold)
    (quorum : lock.threshold ≤ lock.definition.numOperators)
    (everyShare : ∀ secrets ∈ keyShares, secrets.length = lock.definition.numOperators) :
    verifySharesReconstruct lock = .ok () := by
  rw [verifySharesReconstruct, forM_eq_ok_iff]
  intro entry member
  obtain ⟨secrets, known, shared⟩ :=
    secrets_of_mem attested.shared (List.fst_mem_of_mem_zipIdx member)
  have size := everyShare secrets known
  have length : entry.1.pubshares.length = lock.definition.numOperators :=
    shared.length.symm.trans size
  exact (verifyValidatorShares_exact scheme.g1 (length ▸ few)).mpr
    (onPolynomial_of_sharesKey scheme shared positive (size ▸ quorum))

/-- The counts pass iff no two shares of a validator and no two group keys are equal. -/
theorem counts (scheme : Scheme Target) (attested : Attested sha256 lock keyShares nodeKeys)
    (everyShare : ∀ secrets ∈ keyShares, secrets.length = lock.definition.numOperators) :
    verifyPubshareCounts lock = .ok () ↔ (∀ secrets ∈ keyShares, secrets.Nodup) ∧
      (lock.validators.map DistValidator.pubkey).Nodup := by
  have sized : ∀ validator ∈ lock.validators,
      validator.pubshares.length = lock.definition.numOperators := by
    intro validator member
    obtain ⟨secrets, known, shared⟩ := secrets_of_mem attested.shared member
    exact shared.length.symm.trans (everyShare secrets known)
  rw [verifyPubshareCounts_eq_ok_iff, ← nodup_pubshares scheme attested.derived]
  apply and_congr_left'
  exact ⟨fun both validator member => (both validator member).2,
    fun distinct validator member => ⟨sized validator member, distinct validator member⟩⟩

/-- The aggregate passes unless the secrets add up to zero. -/
theorem aggregate_verifies (scheme : Scheme Target)
    (attested : Attested sha256 lock keyShares nodeKeys) :
    verifySignatureAggregate sha256 lock =
      .ok (decide (totalScalar keyShares.flatten ≠ 0)) := by
  obtain ⟨partials, signed, summed⟩ := attested.aggregated
  have nonempty : keyShares.flatten ≠ [] := by
    intro empty
    rw [empty] at signed
    cases signed
    cases summed
  rw [scheme.aggregate_of_secrets signed nonempty, Except.ok.injEq] at summed
  rw [verifySignatureAggregate, attested.lockHash, ok_bind]
  refine congrArg Except.ok (Bool.eq_iff_iff.mpr ?_)
  rw [verifyAggregate_iff scheme attested.derived, decide_eq_true_iff, ← summed]
  exact and_iff_left (scheme.signatureOf_signatureOf _ _)

end Points

end Attested

section Verifies

variable [PyEcc] [G2ProofOfPossession] [AddCommGroup PyEcc.G1.Point] [AddCommGroup PyEcc.G2.Point]
variable [Secp256k1.EthKeys] {Target : Type} [AddCommGroup Target] {sha256 : Bytes → Bytes}

/-- A lock attested by its key shares and nodes passes every check of its verification, but for
the counts when two shares of a validator or two group keys happen to be equal, and for the
aggregate when all secrets happen to add up to zero. -/
theorem attestedLock_verifies (scheme : Scheme Target) {valid : Bytes → Prop}
    (node : Secp256k1.Lawful valid) (digest : ∀ data, (sha256 data).length = 32) {lock : Lock}
    (addressable : Addressable lock) {keyShares : List (List Bytes)} {nodeKeys : List Bytes}
    (attested : Attested sha256 lock keyShares nodeKeys) (positive : 1 ≤ lock.threshold)
    (quorum : lock.threshold ≤ lock.definition.numOperators)
    (everyShare : ∀ secrets ∈ keyShares, secrets.length = lock.definition.numOperators)
    (everyNode : nodeKeys.length = lock.definition.numOperators)
    (validKeys : ∀ secret ∈ nodeKeys, valid secret) {nodePubkeys : List Bytes}
    (published : nodeKeys.mapM Secp256k1.secretToPubkey = .ok nodePubkeys) :
    verifyLockHash sha256 lock = .ok () ∧
      (verifyPubshareCounts lock = .ok () ↔ (∀ secrets ∈ keyShares, secrets.Nodup) ∧
        (lock.validators.map DistValidator.pubkey).Nodup) ∧
      verifySharesReconstruct lock = .ok () ∧
      verifySignatureAggregate sha256 lock =
        .ok (decide (totalScalar keyShares.flatten ≠ 0)) ∧
      verifyNodeSignatures sha256 lock nodePubkeys = .ok true := by
  obtain ⟨sized, operators⟩ := attested.sizes digest addressable
  have few : lock.definition.numOperators < blsModulus :=
    Nat.lt_of_le_of_lt operators (by decide +kernel)
  refine ⟨?_, attested.counts scheme everyShare, attested.reconstructs scheme few positive quorum everyShare,
    attested.aggregate_verifies scheme, attested.nodes_verify node sized everyNode validKeys published⟩
  exact verifyLockHash_eq_ok_iff.mpr
    ⟨⟨attested.configHash, attested.definitionHash⟩, attested.lockHash⟩

end Verifies

/-! ## The lock of the four nodes, attested -/

section Shared

attribute [local instance] sharedPyEcc sharedLibrary sharedKeyGroup sharedSignatureGroup

/-- Keys and signatures that show their secret: the key is marked, the signature names its
digest, and recovery reads the secret from it. -/
@[reducible]
def plainKeys : Secp256k1.EthKeys where
  PrivateKey := Bytes
  privateKey secret := .ok secret
  publicKey secret := 2 :: secret
  signMsgHash secret digest := secret ++ digest ++ [0]
  ecdsaRecover digest signature :=
    if (signature.drop 32).take 32 = digest then .ok (2 :: signature.take 32)
    else .error (.badSignature "not over the digest")

attribute [local instance] plainKeys

theorem signs_plainKeys {secret : Bytes} (known : secret.length = Secp256k1.secretLength) :
    Secp256k1.Signs secret where
  length_signMsgHash {digest} sized := by
    change (secret ++ digest ++ [0]).length = Secp256k1.signatureLength
    rw [List.length_append, List.length_append, known, sized]
    rfl
  recoveryId _ := Or.inl List.getLastD_concat
  ecdsaRecover_signMsgHash {digest} sized := by
    have body : secret ++ digest ++ [0] = secret ++ (digest ++ [0]) := List.append_assoc _ _ _
    have first : (secret ++ (digest ++ [0])).take 32 = secret := List.take_left' known
    have last : ((secret ++ (digest ++ [0])).drop 32).take 32 = digest := by
      have rest : (secret ++ (digest ++ [0])).drop 32 = digest ++ [0] := List.drop_left' known
      rw [rest]
      exact List.take_left' sized
    change (if ((secret ++ digest ++ [0]).drop 32).take 32 = digest then
      Except.ok (2 :: (secret ++ digest ++ [0]).take 32) else _) = _
    rw [body, last, if_pos rfl, first]
    rfl

theorem lawful_plainKeys :
    Secp256k1.Lawful fun secret => secret.length = Secp256k1.secretLength where
  length_secret known := known
  privateKey {secret} known := ⟨secret, rfl, signs_plainKeys known⟩

/-- The secrets of the nodes. -/
def sharedNodeKeys : List Bytes := [1, 2, 3, 4].map fun node => List.replicate 32 node

/-- The definition of the four nodes with the given hashes stored. -/
def storing (configHash definitionHash : Bytes) : Definition :=
  { sharedDefinition with configHash := configHash, definitionHash := definitionHash }

/-- Stored hashes are left out of the config hash. -/
theorem definitionValue_config (configHash definitionHash : Bytes) :
    definitionValue true (storing configHash definitionHash) =
      definitionValue true sharedDefinition := rfl

/-- The stored definition hash is left out of the definition hash. -/
theorem definitionValue_full (configHash definitionHash : Bytes) :
    definitionValue false (storing configHash definitionHash) =
      definitionValue false (storing configHash []) := rfl

def sharedConfigHash : Bytes := (definitionValue true sharedDefinition).root Sha256.sha256

def sharedDefinitionHash : Bytes :=
  (definitionValue false (storing sharedConfigHash [])).root Sha256.sha256

/-- The definition with its hashes. -/
def sealedDefinition : Definition := storing sharedConfigHash sharedDefinitionHash

/-- The hash of the lock of the four nodes. -/
def sharedDigest : Bytes :=
  (lockValue (bareLock sealedDefinition [sharedValidator])).root Sha256.sha256

/-- The lock hash leaves itself and the attestations out. -/
theorem lockValue_attesting (definition : Definition) (validators : List DistValidator)
    (lockHash signatureAggregate : Bytes) (nodeSignatures : List Bytes) :
    lockValue ⟨definition, validators, lockHash, signatureAggregate, nodeSignatures⟩ =
      lockValue (bareLock definition validators) := rfl

/-- The lock of the four nodes with its hash, the aggregate of the four shares and the
signatures of the four nodes. -/
def attestedLock : Lock where
  definition := sealedDefinition
  validators := [sharedValidator]
  lockHash := sharedDigest
  signatureAggregate := toBigEndian 96 (tabulatedCode sharedSignatures
    (sharedSecrets.tail.sum % blsModulus))
  nodeSignatures := sharedNodeKeys.map fun secret => secret ++ sharedDigest ++ [0]

theorem definitionFits_storing (configOnly : Bool) {configHash : Bytes}
    (sized : configHash.length = hashLength) (definitionHash : Bytes) :
    DefinitionFits configOnly (storing configHash definitionHash) where
  uuid := Nat.zero_le _
  name := Nat.zero_le _
  version := show (Encoding.utf8 versionV1x10).length ≤ maxVersionBytes by decide
  timestamp := Nat.zero_le _
  dkgAlgorithm := Nat.zero_le _
  forkVersion := Nat.le_refl _
  operators := by
    intro operator member
    rw [List.eq_of_mem_replicate member]
    exact ⟨Or.inl rfl, fun _ => Nat.zero_le _, fun _ => Nat.le_of_eq List.length_replicate,
      fun _ => Nat.le_of_eq List.length_replicate⟩
  operators_length := show 4 ≤ maxOperators by decide
  creator := Or.inl rfl
  creator_configSignature := fun _ => Nat.le_of_eq List.length_replicate
  validatorAddresses := List.forall_mem_singleton.mpr ⟨Or.inl rfl, Or.inl rfl⟩
  validatorAddresses_length := show 1 ≤ maxValidators by decide
  depositAmounts_length := Nat.zero_le _
  consensusProtocol := Nat.zero_le _
  configHash := fun _ => Nat.le_of_eq sized

theorem length_sharedConfigHash : sharedConfigHash.length = hashLength :=
  Encoding.SszValue.length_root Sha256.length_sha256 _

theorem length_sharedDigest : sharedDigest.length = hashLength :=
  Encoding.SszValue.length_root Sha256.length_sha256 _

theorem lockFits_attested : LockFits attestedLock where
  definition := definitionFits_storing false length_sharedConfigHash _
  validators := List.forall_mem_singleton.mpr
    { pubkey := by decide +kernel
      pubshares := by decide +kernel
      pubshares_length := by decide +kernel
      partialDepositData := List.forall_mem_nil _
      partialDepositData_length := Nat.zero_le _
      builderRegistration := ⟨Nat.le_of_eq List.length_replicate, Nat.le_of_eq List.length_replicate⟩ }
  validators_length := show 1 ≤ maxValidators by decide

theorem addressable_attested : Addressable attestedLock :=
  List.forall_mem_singleton.mpr (show (List.replicate addressLength (0 : UInt8)).length < 2 ^ 63 by
    decide)

/-- The sum of the four shares. -/
theorem totalScalar_shared : totalScalar sharedKeyShares =
    ((sharedSecrets.tail.sum % blsModulus : Nat) : ZMod blsModulus) := by
  have scalars : sharedKeyShares.map secretScalar =
      sharedSecrets.tail.map fun secret : Nat => (secret : ZMod blsModulus) := by
    rw [sharedKeyShares, List.map_map]
    apply List.map_congr_left
    intro secret member
    have bounds : 0 < secret ∧ secret < blsModulus := by
      revert secret
      decide +kernel
    exact secretScalar_secretBytes (natCast_ne_zero bounds.1 bounds.2)
  rw [totalScalar, scalars, ZMod.natCast_mod, Nat.cast_list_sum]

theorem totalScalar_ne_zero : totalScalar [sharedKeyShares].flatten ≠ 0 := by
  rw [List.flatten_singleton, totalScalar_shared]
  exact natCast_ne_zero (by decide +kernel) (Nat.mod_lt _ (by decide +kernel))

theorem configHash_sealed : configHash Sha256.sha256 sealedDefinition = .ok sharedConfigHash := by
  have hashed := (configHash_yields Sha256.length_sha256 sealedDefinition).returns
    (definitionFits_storing true length_sharedConfigHash _)
  rwa [sealedDefinition, definitionValue_config] at hashed

theorem definitionHash_sealed :
    definitionHash Sha256.sha256 sealedDefinition = .ok sharedDefinitionHash := by
  have hashed := (definitionHash_yields Sha256.length_sha256 sealedDefinition).returns
    (definitionFits_storing false length_sharedConfigHash _)
  rwa [sealedDefinition, definitionValue_full] at hashed

theorem lockHash_attested : lockHash Sha256.sha256 attestedLock = .ok sharedDigest := by
  have hashed := (lockHash_yields Sha256.length_sha256 attestedLock addressable_attested).returns
    lockFits_attested
  rwa [attestedLock, lockValue_attesting] at hashed

theorem aggregate_attested : ∃ partials,
    [sharedKeyShares].flatten.mapM (fun secret => Bls.sign secret attestedLock.lockHash) =
        .ok partials ∧
      Bls.aggregate partials = .ok attestedLock.signatureAggregate := by
  obtain ⟨partials, signed⟩ := signs_of_derived attestedLock.lockHash sharesKey_shared.pubshares
  refine ⟨partials, by rw [List.flatten_singleton]; exact signed, ?_⟩
  rw [sharedScheme.aggregate_of_secrets signed (by decide +kernel), totalScalar_shared]
  exact congrArg Except.ok (encode_multiple_one (Nat.mod_lt _ (by decide +kernel)))

theorem nodes_sign {digest : Bytes} (sized : digest.length = Secp256k1.hashLength) :
    sharedNodeKeys.mapM (fun secret => Secp256k1.sign secret digest) =
      .ok (sharedNodeKeys.map fun secret => secret ++ digest ++ [0]) := by
  rw [mapM_eq_ok_iff, List.forall₂_map_right_iff, List.forall₂_same]
  intro secret member
  have known : secret.length = Secp256k1.secretLength := by
    revert secret
    decide
  exact Secp256k1.sign_eq_ok known rfl sized

theorem attested_shared :
    Attested Sha256.sha256 attestedLock [sharedKeyShares] sharedNodeKeys where
  configHash := configHash_sealed
  definitionHash := definitionHash_sealed
  lockHash := lockHash_attested
  shared := List.Forall₂.cons sharesKey_shared List.Forall₂.nil
  aggregated := aggregate_attested
  signed := nodes_sign length_sharedDigest

/-- The aggregate of the four nodes is tested against their partial signatures. -/
theorem verifySignatureAggregate_exact_shared :
    ∃ accepted, verifySignatureAggregate Sha256.sha256 attestedLock = .ok accepted ∧
      (accepted = true ↔ totalScalar [sharedKeyShares].flatten ≠ 0 ∧ ∃ partials aggregated,
        [sharedKeyShares].flatten.mapM (fun secret => Bls.sign secret sharedDigest) = .ok partials ∧
        Bls.aggregate partials = .ok aggregated ∧
        PyEcc.G2.decode attestedLock.signatureAggregate = PyEcc.G2.decode aggregated) :=
  verifySignatureAggregate_exact sharedScheme attested_shared.derived lockHash_attested

/-- The lock of the four nodes passes its whole verification. -/
theorem attestedLock_verifies_shared :
    verifyLockHash Sha256.sha256 attestedLock = .ok () ∧
      verifyPubshareCounts attestedLock = .ok () ∧
      verifySharesReconstruct attestedLock = .ok () ∧
      verifySignatureAggregate Sha256.sha256 attestedLock = .ok true ∧
      verifyNodeSignatures Sha256.sha256 attestedLock (sharedNodeKeys.map (2 :: ·)) = .ok true := by
  have published : sharedNodeKeys.mapM Secp256k1.secretToPubkey =
      .ok (sharedNodeKeys.map (2 :: ·)) := rfl
  have usable : ∀ secret ∈ sharedNodeKeys, secret.length = Secp256k1.secretLength := by decide
  have everyShare : ∀ secrets ∈ [sharedKeyShares], secrets.length = 4 :=
    List.forall_mem_singleton.mpr rfl
  obtain ⟨hashes, counts, reconstructs, aggregate, nodes⟩ := attestedLock_verifies sharedScheme
    lawful_plainKeys Sha256.length_sha256 addressable_attested attested_shared
    (show 1 ≤ 3 by decide) (show 3 ≤ 4 by decide) everyShare rfl usable published
  have distinct : (∀ secrets ∈ [sharedKeyShares], secrets.Nodup) ∧
      ([sharedValidator].map DistValidator.pubkey).Nodup := by
    decide +kernel
  exact ⟨hashes, counts.mpr distinct, reconstructs, aggregate.trans (by rw [decide_eq_true totalScalar_ne_zero]),
    nodes⟩

end Shared

/-! ## Attestations of other content -/

section Digests

variable {sha256 : Bytes → Bytes}

/-- Two locks agree on everything the lock hash covers. -/
def SameContent (one two : Lock) : Prop :=
  (SameConfig one.definition two.definition ∧ SameSignatures one.definition two.definition) ∧
    one.validators = two.validators

theorem length_lockHash (digest : ∀ data, (sha256 data).length = 32) {lock : Lock}
    (full : lock.FullLength) {root : Bytes} (hashed : lockHash sha256 lock = .ok root) :
    root.length = hashLength := by
  obtain ⟨-, rfl⟩ := (lockHash_yields digest lock full.addressable).eq_ok_iff.mp hashed
  exact Encoding.SszValue.length_root digest _

/-- Two of the inputs of 64 bytes have one digest. -/
def Collides (sha256 : Bytes → Bytes) (inputs : List Bytes) : Prop :=
  ∃ first ∈ inputs, ∃ second ∈ inputs, first.length = 64 ∧ second.length = 64 ∧
    sha256 first = sha256 second ∧ first ≠ second

theorem collides_of_not_collisionFree {inputs : List Bytes}
    (collision : ¬CollisionFree sha256 inputs) : Collides sha256 inputs := by
  unfold CollisionFree at collision
  push Not at collision
  exact collision

/-- Locks with one hash have one content, or their hashing shows a collision. -/
theorem sameContent_or_collides (digest : ∀ data, (sha256 data).length = 32) {one two : Lock}
    (fullOne : one.FullLength) (fullTwo : two.FullLength) {root : Bytes}
    (hashedOne : lockHash sha256 one = .ok root) (hashedTwo : lockHash sha256 two = .ok root) :
    SameContent one two ∨ Collides sha256 (lockInputs sha256 one ++ lockInputs sha256 two) := by
  by_cases free : CollisionFree sha256 (lockInputs sha256 one ++ lockInputs sha256 two)
  · left
    obtain ⟨fitsOne, rootOne⟩ :=
      (lockHash_yields digest one fullOne.addressable).eq_ok_iff.mp hashedOne
    obtain ⟨fitsTwo, rootTwo⟩ :=
      (lockHash_yields digest two fullTwo.addressable).eq_ok_iff.mp hashedTwo
    rw [SameContent, ← lockValue_inj fitsOne fitsTwo fullOne fullTwo]
    exact Encoding.SszValue.eq_of_root_eq digest _ _
      (alike_lock fitsOne fitsTwo fullOne fullTwo) free (rootOne.trans rootTwo.symm)
  · exact Or.inr (collides_of_not_collisionFree free)

end Digests

section Binding

variable [PyEcc] [G2ProofOfPossession] [AddCommGroup PyEcc.G1.Point] [AddCommGroup PyEcc.G2.Point]
variable [Secp256k1.EthKeys] {Target : Type} [AddCommGroup Target] {sha256 : Bytes → Bytes}

/-- Neither attestation of a lock passes with a lock of other content: not the aggregate over the
same public shares, unless hashing the two locks shows a collision of SHA-256 or the two lock
hashes are hashed to one point of the curve, and not the signatures of at least one node, unless
there is such a collision or one signature has one key over the two lock hashes. -/
theorem attestations_bind (scheme : Scheme Target) (digest : ∀ data, (sha256 data).length = 32)
    {one two : Lock} (fullOne : one.FullLength) (fullTwo : two.FullLength) {first second : Bytes}
    (hashedOne : lockHash sha256 one = .ok first) (hashedTwo : lockHash sha256 two = .ok second) :
    (∀ keyShares, Derived one.validators keyShares →
      aggregatePubkeys two.validators = aggregatePubkeys one.validators →
      two.signatureAggregate = one.signatureAggregate →
      verifySignatureAggregate sha256 one = .ok true →
      verifySignatureAggregate sha256 two = .ok true →
        SameContent one two ∨ Collides sha256 (lockInputs sha256 one ++ lockInputs sha256 two) ∨
          first ≠ second ∧ scheme.hashToG2 first = scheme.hashToG2 second) ∧
    ∀ nodePubkeys, 1 ≤ one.definition.numOperators → two.nodeSignatures = one.nodeSignatures →
      verifyNodeSignatures sha256 one nodePubkeys = .ok true →
      verifyNodeSignatures sha256 two nodePubkeys = .ok true →
        SameContent one two ∨ Collides sha256 (lockInputs sha256 one ++ lockInputs sha256 two) ∨
          first ≠ second ∧ ∃ signature pubkey,
            Secp256k1.EthKeys.ecdsaRecover first signature = .ok pubkey ∧
              Secp256k1.EthKeys.ecdsaRecover second signature = .ok pubkey := by
  -- one hash binds the content, and two hashes are told apart or not
  have conclude : ∀ {confused : Prop}, confused → SameContent one two ∨
      Collides sha256 (lockInputs sha256 one ++ lockInputs sha256 two) ∨
        first ≠ second ∧ confused := by
    intro confused holds
    by_cases same : first = second
    · rcases sameContent_or_collides digest fullOne fullTwo hashedOne (same ▸ hashedTwo) with
        content | collision
      · exact Or.inl content
      · exact Or.inr (Or.inl collision)
    · exact Or.inr (Or.inr ⟨same, holds⟩)
  constructor
  · intro keyShares derived sameShares sameAggregate acceptedOne acceptedTwo
    rw [verifySignatureAggregate, hashedOne, ok_bind] at acceptedOne
    rw [verifySignatureAggregate, hashedTwo, ok_bind, sameShares, sameAggregate] at acceptedTwo
    have genuineOne := (verifyAggregate_iff scheme derived).mp (Except.ok.inj acceptedOne)
    have genuineTwo := (verifyAggregate_iff scheme derived).mp (Except.ok.inj acceptedTwo)
    exact conclude (hashToG2_eq_of_signatureOf scheme genuineOne.1 genuineOne.2 genuineTwo.2)
  · intro nodePubkeys some_node sameSignatures acceptedOne acceptedTwo
    have sizedOne := length_lockHash digest fullOne hashedOne
    have sizedTwo := length_lockHash digest fullTwo hashedTwo
    obtain ⟨signatures, pubkeys, eachOne⟩ :=
      (verifyNodeSignatures_eq_ok_true_iff hashedOne sizedOne).mp acceptedOne
    obtain ⟨-, -, eachTwo⟩ := (verifyNodeSignatures_eq_ok_true_iff hashedTwo sizedTwo).mp acceptedTwo
    rw [sameSignatures] at eachTwo
    -- the first operator's signature recovers its key over both hashes
    have paired : 0 < (nodePubkeys.zip one.nodeSignatures).length := by
      rw [List.length_zip]
      omega
    have member := List.getElem_mem paired
    obtain ⟨normalised, reduced, recoveredOne⟩ :=
      (Secp256k1.recover_eq_ok_iff sizedOne).mp (eachOne _ member)
    obtain ⟨_, alsoReduced, recoveredTwo⟩ :=
      (Secp256k1.recover_eq_ok_iff sizedTwo).mp (eachTwo _ member)
    cases reduced.symm.trans alsoReduced
    exact conclude ⟨_, _, recoveredOne, recoveredTwo⟩

end Binding

section Bound

attribute [local instance] sharedPyEcc sharedLibrary sharedKeyGroup sharedSignatureGroup plainKeys

theorem fullLength_attested : attestedLock.FullLength where
  definition :=
    { forkVersion := rfl
      operators := by
        intro operator member
        rw [List.eq_of_mem_replicate member]
        exact ⟨List.length_replicate, List.length_replicate⟩
      creator := List.length_replicate
      configHash := length_sharedConfigHash }
  validators := List.forall_mem_singleton.mpr
    { pubkey := length_toBigEndian _ _
      pubshares := by decide +kernel
      partialDepositData := List.forall_mem_nil _
      builderRegistration :=
        ⟨List.length_replicate, List.length_replicate, List.length_replicate⟩ }

/-- The lock with its cluster renamed. -/
def renamedLock : Lock :=
  { attestedLock with definition := { sealedDefinition with name := "renamed" } }

/-- The hash of the lock of the renamed cluster. -/
def renamedDigest : Bytes := (lockValue renamedLock).root Sha256.sha256

theorem fullLength_renamed : renamedLock.FullLength :=
  ⟨{ fullLength_attested.definition with }, fullLength_attested.validators⟩

theorem lockFits_renamed : LockFits renamedLock where
  definition := { lockFits_attested.definition with
    name := show (Encoding.utf8 "renamed").length ≤ maxNameBytes by decide }
  validators := lockFits_attested.validators
  validators_length := lockFits_attested.validators_length

theorem lockHash_renamed : lockHash Sha256.sha256 renamedLock = .ok renamedDigest :=
  (lockHash_yields Sha256.length_sha256 renamedLock addressable_attested).returns lockFits_renamed

theorem not_sameContent_renamed : ¬SameContent attestedLock renamedLock :=
  fun same => absurd same.1.1.name (show ("" : String) ≠ "renamed" by decide)

/-- The library of the four nodes hashes every message to one point. -/
theorem hashToG2_shared (first second : Bytes) :
    sharedScheme.hashToG2 first = sharedScheme.hashToG2 second := rfl

theorem verifySignatureAggregate_renamed :
    verifySignatureAggregate Sha256.sha256 renamedLock = .ok true := by
  have accepted := attested_shared.aggregate_verifies sharedScheme
  rw [decide_eq_true totalScalar_ne_zero, verifySignatureAggregate, lockHash_attested,
    ok_bind] at accepted
  have genuine :=
    (verifyAggregate_iff sharedScheme attested_shared.derived).mp (Except.ok.inj accepted)
  rw [Bls.Scheme.SignatureOf, hashToG2_shared _ renamedDigest] at genuine
  rw [verifySignatureAggregate, lockHash_renamed, ok_bind]
  exact congrArg Except.ok
    ((verifyAggregate_iff sharedScheme attested_shared.derived).mpr genuine)

/-- A signature that names its digest has a key over that digest only. -/
theorem eq_of_plainKeys {first second signature pubkey : Bytes}
    (one : plainKeys.ecdsaRecover first signature = .ok pubkey)
    (two : plainKeys.ecdsaRecover second signature = .ok pubkey) : first = second := by
  have named : ∀ {digest : Bytes}, plainKeys.ecdsaRecover digest signature = .ok pubkey →
      (signature.drop 32).take 32 = digest := by
    intro digest recovered
    by_contra other
    change (if (signature.drop 32).take 32 = digest then
      Except.ok (2 :: signature.take 32) else _) = _ at recovered
    rw [if_neg other] at recovered
    cases recovered
  exact (named one).symm.trans (named two)

/-- The aggregate passes with the renamed lock as well, where every message is hashed to one
point; the node signatures do not, unless hashing shows a collision. -/
theorem attestations_bind_shared :
    (Collides Sha256.sha256
        (lockInputs Sha256.sha256 attestedLock ++ lockInputs Sha256.sha256 renamedLock) ∨
      sharedDigest ≠ renamedDigest ∧
        sharedScheme.hashToG2 sharedDigest = sharedScheme.hashToG2 renamedDigest) ∧
    (verifyNodeSignatures Sha256.sha256 renamedLock (sharedNodeKeys.map (2 :: ·)) = .ok true →
      Collides Sha256.sha256
        (lockInputs Sha256.sha256 attestedLock ++ lockInputs Sha256.sha256 renamedLock)) := by
  obtain ⟨aggregate, nodes⟩ := attestations_bind sharedScheme Sha256.length_sha256
    fullLength_attested fullLength_renamed lockHash_attested lockHash_renamed
  constructor
  · have accepted := attested_shared.aggregate_verifies sharedScheme
    rw [decide_eq_true totalScalar_ne_zero] at accepted
    exact (aggregate _ attested_shared.derived rfl rfl accepted
      verifySignatureAggregate_renamed).resolve_left not_sameContent_renamed
  · intro passes
    have accepted := attested_shared.nodes_verify lawful_plainKeys length_sharedDigest rfl
      (by decide) (show sharedNodeKeys.mapM Secp256k1.secretToPubkey =
        .ok (sharedNodeKeys.map (2 :: ·)) from rfl)
    rcases (nodes _ (by decide) rfl accepted passes).resolve_left not_sameContent_renamed with
      collision | ⟨different, signature, pubkey, one, two⟩
    · exact collision
    · exact absurd (eq_of_plainKeys one two) different

end Bound

end DvSpec.Cluster
