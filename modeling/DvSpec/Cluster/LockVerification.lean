import DvSpec.Cluster.Hashing
import DvSpec.Cluster.Verification
import DvSpec.Crypto.Secp256k1
import DvSpec.Crypto.Signing

/-!
# Verifying a lock before use

The stored hashes are compared with the content, the public shares are counted, and
the two attestations are verified over the recomputed lock hash: the plain aggregate of
every share's signature, and one node signature per operator.
-/

namespace DvSpec.Cluster

open DvSpec.Library DvSpec.Library.Raising DvSpec.Bls DvSpec.Secp256k1

/-! ## Stored hashes -/

section Hashes

variable (sha256 : Bytes → Bytes)

/-- `value.hex()` -/
def hexString (value : Bytes) : String := String.ofList (hex value)

/-- Compare one stored hash with the one its content has. -/
def requireHash (name : String) (stored expected : Bytes) : Except PyError Unit :=
  if stored ≠ expected then
    .error (.valueError (s!"{name} hash mismatch: file has {hexString stored}, " ++
      s!"content hashes to {hexString expected}"))
  else .ok ()

/-- Check the hashes stored in a definition against recomputation. -/
def verifyDefinitionHashes (definition : Definition) : Except PyError Unit := do
  let expectedConfig ← configHash sha256 definition
  requireHash "config" definition.configHash expectedConfig
  let expectedDefinition ← definitionHash sha256 definition
  requireHash "definition" definition.definitionHash expectedDefinition

/-- Check the hashes stored in a lock, including the definition's. -/
def verifyLockHash (lock : Lock) : Except PyError Unit := do
  verifyDefinitionHashes sha256 lock.definition
  let expected ← lockHash sha256 lock
  requireHash "lock" lock.lockHash expected

end Hashes

/-! ## Public shares -/

/-- The public shares of every validator, in file order. -/
def aggregatePubkeys (validators : List DistValidator) : List Bytes :=
  validators.flatMap DistValidator.pubshares

/-- One pass of the loop over the validators, with the group keys seen so far. -/
def checkPubshareCounts (expected : Nat) (seen : List Bytes) (index : Nat)
    (validator : DistValidator) : Except PyError (List Bytes) :=
  if validator.pubshares.length ≠ expected then
    .error (.valueError (s!"validator {index} has {validator.pubshares.length} public shares, " ++
      s!"expected one per operator ({expected})"))
  else if seen.contains validator.pubkey then
    .error (.valueError s!"validator {index} repeats an earlier group public key")
  else if validator.pubshares.dedup.length ≠ validator.pubshares.length then
    .error (.valueError s!"validator {index} repeats a public share")
  else .ok (validator.pubkey :: seen)

/-- The loop over the validators. -/
def pubshareCountsLoop (expected : Nat) (seen : List Bytes) :
    List (DistValidator × Nat) → Except PyError Unit
  | [] => .ok ()
  | entry :: rest => do
      let seen ← checkPubshareCounts expected seen entry.2 entry.1
      pubshareCountsLoop expected seen rest

/-- Check every validator carries exactly one public share per operator. -/
def verifyPubshareCounts (lock : Lock) : Except PyError Unit :=
  pubshareCountsLoop lock.definition.numOperators [] lock.validators.zipIdx

/-! ## Attestations -/

section Attestations

variable (sha256 : Bytes → Bytes)

/-- Return whether the lock's BLS aggregate signs its own lock hash. -/
def verifySignatureAggregate [G2ProofOfPossession] (lock : Lock) : Except PyError Bool := do
  let digest ← lockHash sha256 lock
  return verifyAggregate (aggregatePubkeys lock.validators) digest lock.signatureAggregate

/-- `all(...)` over verifications, which stops at the first that fails. -/
def allVerify [EthKeys] (digest : Bytes) : List (Bytes × Bytes) → Except PyError Bool
  | [] => .ok true
  | (pubkey, signature) :: rest => do
      let accepted ← Secp256k1.verify pubkey digest signature
      if accepted then allVerify digest rest else .ok false

/-- Return whether every operator's node signature signs the lock hash. -/
def verifyNodeSignatures [EthKeys] (lock : Lock) (nodePubkeys : List Bytes) :
    Except PyError Bool :=
  let operators := lock.definition.numOperators
  if lock.nodeSignatures.length ≠ operators then
    .error (.valueError (s!"lock has {lock.nodeSignatures.length} node signatures for " ++
      s!"{operators} operators"))
  else if nodePubkeys.length ≠ operators then
    .error (.valueError (s!"got {nodePubkeys.length} node public keys for {operators} operators"))
  else do
    let digest ← lockHash sha256 lock
    allVerify digest (nodePubkeys.zip lock.nodeSignatures)

end Attestations

/-! ## What the checks accept -/

section Accepted

variable {sha256 : Bytes → Bytes}

theorem requireHash_eq_ok_iff {name : String} {stored expected : Bytes} :
    requireHash name stored expected = .ok () ↔ expected = stored := by
  unfold requireHash
  split
  · rename_i differ
    exact iff_of_false (fun accepted => by cases accepted) (Ne.symm differ)
  · rename_i same
    exact iff_of_true rfl (not_not.mp same).symm

/-- The definition's hashes pass iff they are those of its content. -/
theorem verifyDefinitionHashes_eq_ok_iff {definition : Definition} :
    verifyDefinitionHashes sha256 definition = .ok () ↔
      configHash sha256 definition = .ok definition.configHash ∧
        definitionHash sha256 definition = .ok definition.definitionHash := by
  rw [verifyDefinitionHashes, bind_eq_ok_iff]
  simp only [check_eq_ok_iff]
  simp only [bind_eq_ok_iff, requireHash_eq_ok_iff]
  constructor
  · rintro ⟨_, config, rfl, _, full, rfl⟩
    exact ⟨config, full⟩
  · rintro ⟨config, full⟩
    exact ⟨_, config, rfl, _, full, rfl⟩

/-- A lock's hashes pass iff all three are those of its content. -/
theorem verifyLockHash_eq_ok_iff {lock : Lock} :
    verifyLockHash sha256 lock = .ok () ↔
      (configHash sha256 lock.definition = .ok lock.definition.configHash ∧
        definitionHash sha256 lock.definition = .ok lock.definition.definitionHash) ∧
      lockHash sha256 lock = .ok lock.lockHash := by
  rw [verifyLockHash, check_eq_ok_iff, verifyDefinitionHashes_eq_ok_iff, bind_eq_ok_iff]
  simp only [requireHash_eq_ok_iff, exists_eq_right]

theorem checkPubshareCounts_eq_ok_iff {expected index : Nat} {seen next : List Bytes}
    {validator : DistValidator} :
    checkPubshareCounts expected seen index validator = .ok next ↔
      (validator.pubshares.length = expected ∧ validator.pubshares.Nodup) ∧
        validator.pubkey ∉ seen ∧ next = validator.pubkey :: seen := by
  have distinct_iff : validator.pubshares.dedup.length = validator.pubshares.length ↔
      validator.pubshares.Nodup := by
    rw [← List.dedup_eq_self]
    exact ⟨(List.dedup_sublist _).eq_of_length, congrArg List.length⟩
  unfold checkPubshareCounts
  by_cases counted : validator.pubshares.length = expected
  · by_cases fresh : validator.pubkey ∈ seen
    · simp [counted, fresh]
    · by_cases distinct : validator.pubshares.Nodup
      · have size := distinct_iff.mpr distinct
        rw [if_neg (not_not_intro counted), if_neg (mt List.contains_iff_mem.mp fresh),
          if_neg (not_not_intro size)]
        simp only [Except.ok.injEq, counted, distinct, fresh, not_false_eq_true, true_and]
        exact eq_comm
      · have size := mt distinct_iff.mp distinct
        rw [if_neg (not_not_intro counted), if_neg (mt List.contains_iff_mem.mp fresh), if_pos size]
        simp [distinct]
  · simp [counted]

theorem pubshareCountsLoop_eq_ok_iff {expected : Nat} {seen : List Bytes}
    {entries : List (DistValidator × Nat)} :
    pubshareCountsLoop expected seen entries = .ok () ↔
      (∀ entry ∈ entries, entry.1.pubshares.length = expected ∧ entry.1.pubshares.Nodup) ∧
        (entries.map fun entry => entry.1.pubkey).Nodup ∧
        ∀ entry ∈ entries, entry.1.pubkey ∉ seen := by
  induction entries generalizing seen with
  | nil => simp [pubshareCountsLoop]
  | cons entry rest ih =>
      rw [pubshareCountsLoop, bind_eq_ok_iff]
      simp only [checkPubshareCounts_eq_ok_iff, ih, List.forall_mem_cons, List.map_cons,
        List.nodup_cons, List.mem_map, not_exists, not_and]
      constructor
      · rintro ⟨_, ⟨here, fresh, rfl⟩, each, distinct, apart⟩
        refine ⟨⟨here, each⟩, ⟨?_, distinct⟩, fresh, ?_⟩
        · intro other member same
          exact apart other member (same ▸ List.mem_cons_self)
        · intro other member old
          exact apart other member (List.mem_cons_of_mem _ old)
      · rintro ⟨⟨here, each⟩, ⟨first, distinct⟩, fresh, apart⟩
        refine ⟨_, ⟨here, fresh, rfl⟩, each, distinct, ?_⟩
        intro other member known
        rcases List.mem_cons.mp known with same | old
        · exact first other member same
        · exact apart other member old

/-- The counts pass iff every validator has one share per operator, no group key is used
twice and no validator repeats a share. -/
theorem verifyPubshareCounts_eq_ok_iff {lock : Lock} :
    verifyPubshareCounts lock = .ok () ↔
      (∀ validator ∈ lock.validators,
        validator.pubshares.length = lock.definition.numOperators ∧ validator.pubshares.Nodup) ∧
      (lock.validators.map DistValidator.pubkey).Nodup := by
  rw [verifyPubshareCounts, pubshareCountsLoop_eq_ok_iff]
  have each : (∀ entry ∈ lock.validators.zipIdx,
      entry.1.pubshares.length = lock.definition.numOperators ∧ entry.1.pubshares.Nodup) ↔
        ∀ validator ∈ lock.validators,
          validator.pubshares.length = lock.definition.numOperators ∧ validator.pubshares.Nodup := by
    constructor
    · intro entries validator member
      rw [← List.zipIdx_map_fst 0 lock.validators] at member
      obtain ⟨entry, among, rfl⟩ := List.mem_map.mp member
      exact entries entry among
    · intro validators entry member
      exact validators entry.1 (List.fst_mem_of_mem_zipIdx member)
  have keys : (lock.validators.zipIdx.map fun entry => entry.1.pubkey) =
      lock.validators.map DistValidator.pubkey := by
    conv_rhs => rw [← List.zipIdx_map_fst 0 lock.validators, List.map_map]
    rfl
  rw [each, keys]
  simp

/-- All node signatures are accepted iff the key of every operator is recovered from its own. -/
theorem allVerify_eq_ok_true_iff [EthKeys] {digest : Bytes}
    (sized : digest.length = Secp256k1.hashLength) {pairs : List (Bytes × Bytes)} :
    allVerify digest pairs = .ok true ↔
      ∀ pair ∈ pairs, Secp256k1.recover digest pair.2 = .ok pair.1 := by
  induction pairs with
  | nil => simp [allVerify]
  | cons pair rest ih =>
      rw [allVerify, Secp256k1.verify_eq sized, ok_bind, List.forall_mem_cons, ← ih]
      by_cases accepted : Secp256k1.recover digest pair.2 = .ok pair.1
      · simp [accepted]
      · simp [accepted]

/-- The node signatures pass iff there is one for each operator's key and every key is recovered
from its own over the lock hash. -/
theorem verifyNodeSignatures_eq_ok_true_iff [EthKeys] {lock : Lock} {nodePubkeys : List Bytes}
    {digest : Bytes} (hashed : lockHash sha256 lock = .ok digest)
    (sized : digest.length = Secp256k1.hashLength) :
    verifyNodeSignatures sha256 lock nodePubkeys = .ok true ↔
      lock.nodeSignatures.length = lock.definition.numOperators ∧
      nodePubkeys.length = lock.definition.numOperators ∧
      ∀ pair ∈ nodePubkeys.zip lock.nodeSignatures,
        Secp256k1.recover digest pair.2 = .ok pair.1 := by
  unfold verifyNodeSignatures
  by_cases signatures : lock.nodeSignatures.length = lock.definition.numOperators
  · by_cases pubkeys : nodePubkeys.length = lock.definition.numOperators
    · simp only [signatures, pubkeys, ne_eq, not_true_eq_false, if_false, true_and]
      rw [hashed, ok_bind, allVerify_eq_ok_true_iff sized]
    · simp [signatures, pubkeys]
  · simp [signatures]

end Accepted

end DvSpec.Cluster
