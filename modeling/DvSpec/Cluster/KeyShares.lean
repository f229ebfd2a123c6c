import DvSpec.Cluster.Files
import DvSpec.Cluster.HashRoots
import DvSpec.Cluster.ShareReconstruction
import DvSpec.SigAgg.ThreeOfFour

/-!
# Key shares behind public shares

A validator's public shares are derived from secrets, one for each operator, that lie on
a polynomial through the validator's key.  Such shares pass the reconstruction check.
-/

namespace DvSpec.Cluster

open DvSpec.Library DvSpec.Library.Raising DvSpec.Bls DvSpec.SigAgg Polynomial

/-- A validator's public shares are those of the secrets, which lie on a polynomial of degree
below the threshold through the secret of its public key. -/
structure SharesKey [G2ProofOfPossession] (threshold : Nat) (validator : DistValidator)
    (secrets : List Bytes) : Prop where
  pubshares : secrets.mapM secretToPubkey = .ok validator.pubshares
  polynomial : ∃ f : (ZMod blsModulus)[X], f.degree < threshold ∧
    secretToPubkey (secretBytes (f.eval 0)) = .ok validator.pubkey ∧
    ∀ position < secrets.length,
      secretScalar (secrets.getD position []) = f.eval (scalar (position + 1))

theorem SharesKey.length [G2ProofOfPossession] {threshold : Nat} {validator : DistValidator}
    {secrets : List Bytes} (shared : SharesKey threshold validator secrets) :
    secrets.length = validator.pubshares.length :=
  (mapM_eq_ok_iff.mp shared.pubshares).length_eq

/-- The scalar of bytes that derive a key is not zero. -/
theorem ne_zero_of_derived [G2ProofOfPossession] {value : ZMod blsModulus} {pubkey : Bytes}
    (derived : secretToPubkey (secretBytes value) = .ok pubkey) : value ≠ 0 := by
  rintro rfl
  obtain ⟨number, accepted, -⟩ := bind_eq_ok_iff.mp derived
  obtain ⟨-, rfl, positive, -⟩ := secretToInt_eq_ok_iff.mp accepted
  revert positive
  decide +kernel

section Scalars

variable [PyEcc] [G2ProofOfPossession] [AddCommGroup PyEcc.G1.Point] [AddCommGroup PyEcc.G2.Point]
variable {Target : Type} [AddCommGroup Target]

/-- A polynomial over the scalars, times the generator, is one over the group. -/
theorem exists_group_polynomial (scheme : Scheme Target) {size : Nat} (positive : 1 ≤ size)
    {f : (ZMod blsModulus)[X]} (degree : f.degree < size) :
    ∃ coefficients : Fin size → PyEcc.G1.Point, ∀ index : Nat,
      groupValue coefficients index =
        PyEcc.G1.multiply scheme.generator (f.eval (scalar index)).val := by
  let scalars := scheme.g1.module
  have natDegree : f.natDegree < size := by
    by_cases zero : f = 0
    · rw [zero, natDegree_zero]
      exact positive
    · exact (natDegree_lt_iff_degree_lt zero).mpr degree
  refine ⟨fun power => f.coeff power • scheme.generator, fun index => ?_⟩
  rw [multiply_val scheme.g1, eval_eq_sum_range' natDegree, Finset.sum_smul,
    ← Fin.sum_univ_eq_sum_range fun power => (f.coeff power * scalar index ^ power) •
      scheme.generator, groupValue]
  apply Finset.sum_congr rfl
  intro power _
  rw [← Nat.cast_smul_eq_nsmul (ZMod blsModulus), Nat.cast_pow, smul_smul, mul_comm]

/-- The public share at a position is that of the secret there. -/
theorem keyOf_getD (scheme : Scheme Target) {secrets pubkeys : List Bytes}
    (derived : secrets.mapM secretToPubkey = .ok pubkeys) {position : Nat}
    (below : position < secrets.length) :
    scheme.KeyOf (secretScalar (secrets.getD position [])) (pubkeys.getD position []) := by
  rw [mapM_eq_ok_iff] at derived
  induction derived generalizing position with
  | nil => cases below
  | cons here later ih =>
      cases position with
      | zero => exact (scheme.keyOf_of_secretToPubkey here).2
      | succ position => exact ih (Nat.lt_of_succ_lt_succ below)

/-- Shared keys lie on a polynomial through the public key. -/
theorem onPolynomial_of_sharesKey (scheme : Scheme Target) {threshold : Nat}
    {validator : DistValidator} {secrets : List Bytes}
    (shared : SharesKey threshold validator secrets) (positive : 1 ≤ threshold)
    (quorum : threshold ≤ secrets.length) : OnPolynomial threshold validator := by
  obtain ⟨f, degree, derived, through⟩ := shared.polynomial
  obtain ⟨coefficients, values⟩ := exists_group_polynomial scheme positive degree
  have length := shared.length
  refine ⟨positive, length ▸ quorum, coefficients, ?_, ?_⟩
  · rw [scheme.secretToPubkey_secretBytes (ne_zero_of_derived derived), Except.ok.injEq] at derived
    rw [← derived, values, scalar, Nat.cast_zero]
    rfl
  · intro position below
    have key := keyOf_getD scheme shared.pubshares (length ▸ below)
    rw [Scheme.KeyOf, through position (length ▸ below)] at key
    rw [key, values]

end Scalars

/-! ## The key shared three of four -/

section Shared

attribute [local instance] sharedPyEcc sharedLibrary sharedKeyGroup sharedSignatureGroup

/-- The secrets of the four nodes. -/
def sharedKeyShares : List Bytes :=
  sharedSecrets.tail.map fun secret : Nat => secretBytes (secret : ZMod blsModulus)

theorem one_lt_goIntBound : 1 < 2 ^ 63 := by decide

theorem three_lt_goIntBound : 3 < 2 ^ 63 := by decide

/-- The validator of the shared key. -/
def sharedValidator : DistValidator where
  pubkey := toBigEndian 48 (tabulatedCode sharedKeys (sharedSecrets.getD 0 0))
  pubshares := sharedSecrets.tail.map fun secret => toBigEndian 48 (tabulatedCode sharedKeys secret)
  partialDepositData := []
  builderRegistration := {
    message := {
      feeRecipient := List.replicate addressLength 0
      gasLimit := ⟨0, zero_lt_goIntBound⟩
      timestamp := ⟨0, zero_lt_goIntBound⟩
      pubkey := List.replicate pubkeyLength 0 }
    signature := List.replicate blsSignatureLength 0 }

/-- A definition for the four nodes and their validator. -/
def sharedDefinition : Definition where
  uuid := ""
  name := ""
  version := versionV1x10
  timestamp := ""
  numValidators := ⟨1, one_lt_goIntBound⟩
  threshold := ⟨3, three_lt_goIntBound⟩
  dkgAlgorithm := ""
  forkVersion := [0, 0, 0, 0]
  operators := List.replicate 4 {
    address := ""
    enr := ""
    configSignature := List.replicate k1SignatureLength 0
    enrSignature := List.replicate k1SignatureLength 0 }
  creator := { address := "", configSignature := List.replicate k1SignatureLength 0 }
  validatorAddresses := [{ feeRecipientAddress := "", withdrawalAddress := "" }]
  depositAmounts := []
  consensusProtocol := ""
  targetGasLimit := ⟨0, zero_lt_goIntBound⟩
  compounding := false
  configHash := List.replicate hashLength 0
  definitionHash := []
  version_supported := List.mem_singleton_self _
  numValidators_eq := rfl

theorem secretToPubkey_shared {secret : Nat} (member : secret ∈ sharedSecrets) :
    secretToPubkey (secretBytes (secret : ZMod blsModulus)) =
      .ok (toBigEndian 48 (tabulatedCode sharedKeys secret)) := by
  have bounds : 0 < secret ∧ secret < blsModulus := by
    revert secret
    decide +kernel
  rw [sharedScheme.secretToPubkey_secretBytes (natCast_ne_zero bounds.1 bounds.2)]
  exact congrArg Except.ok (encode_multiple_one bounds.2)

theorem secretScalar_secretBytes {value : ZMod blsModulus} (nonzero : value ≠ 0) :
    secretScalar (secretBytes value) = value := by
  obtain ⟨-, number, -⟩ := secretToInt_eq_ok_iff.mp (secretToInt_secretBytes nonzero)
  rw [secretScalar, number, ZMod.natCast_zmod_val]

/-- The secrets of the four nodes share the validator's key. -/
theorem sharesKey_shared : SharesKey (recommendedThreshold 4) sharedValidator sharedKeyShares where
  pubshares := by
    rw [mapM_eq_ok_iff, sharedKeyShares, sharedValidator, List.forall₂_map_left_iff,
      List.forall₂_map_right_iff, List.forall₂_same]
    intro secret member
    exact secretToPubkey_shared (List.mem_of_mem_tail member)
  polynomial := by
    refine ⟨sharedPolynomial, threeOfFour.degree_lt, ?_, ?_⟩
    · rw [secret_sharedPolynomial]
      exact secretToPubkey_shared (by decide +kernel)
    · intro position below
      have few : position + 1 < 5 := Nat.succ_lt_succ below
      have entry : sharedKeyShares.getD position [] =
          secretBytes (sharedPolynomial.eval (scalar (position + 1))) := by
        rw [eval_sharedPolynomial few, List.getD_eq_getElem _ _ below]
        simp only [sharedKeyShares, List.getElem_map, List.getElem_tail]
        rw [List.getD_eq_getElem _ _ few]
        rfl
      rw [entry, secretScalar_secretBytes (share_ne_zero few)]

end Shared

end DvSpec.Cluster
