import DvSpec.Library.Raising
import DvSpec.Types.Duty

/-!
# secp256k1 signatures

Signatures are 65 bytes with the recovery id last.  The public key is recovered from
the signature, whose recovery id may carry an offset; recovery and signing of a digest
belong to the key library and enter as parameters.
-/

namespace DvSpec.Secp256k1

open DvSpec.Library DvSpec.Library.Raising

/-- The exceptions of the key library, each with its text. -/
inductive EthKeysError where
  | badSignature (text : String)
  | validationError (text : String)
  deriving DecidableEq, Repr

def EthKeysError.text : EthKeysError → String
  | .badSignature text => text
  | .validationError text => text

/-- The key library: the key made from a 32-byte secret, which raises for a scalar out of the
curve's range, its compressed public key and its signature of a 32-byte digest, and the
compressed key recovered from a digest and 65 bytes. -/
class EthKeys where
  PrivateKey : Type
  privateKey : Bytes → Except PyError PrivateKey
  publicKey : PrivateKey → Bytes
  signMsgHash : PrivateKey → Bytes → Bytes
  ecdsaRecover : Bytes → Bytes → Except EthKeysError Bytes

def secretLength : Nat := 32

def signatureLength : Nat := 65

def hashLength : Nat := 32

/-- Offset some encodings add to the recovery id. -/
def recoveryIdOffset : Nat := 27

def checkHash (digest : Bytes) : Except PyError Bytes :=
  if digest.length ≠ hashLength then
    .error (.valueError s!"hash must be {hashLength} bytes, got {digest.length}")
  else .ok digest

/-- Return the signature with its recovery id reduced to zero or one. -/
def normaliseRecoveryId (signature : Bytes) : Except PyError Bytes :=
  if signature.length ≠ signatureLength then
    .error (.valueError s!"signature must be {signatureLength} bytes, got {signature.length}")
  else
    let recoveryId := (signature.getLastD 0).toNat
    if recoveryId = recoveryIdOffset ∨ recoveryId = recoveryIdOffset + 1 then
      .ok (signature.dropLast ++ [UInt8.ofNat (recoveryId - recoveryIdOffset)])
    else if recoveryId = 0 ∨ recoveryId = 1 then .ok signature
    else .error (.valueError s!"invalid recovery id {recoveryId}")

section Operations

variable [EthKeys]

/-- Derive the compressed public key of a secret key. -/
def secretToPubkey (secret : Bytes) : Except PyError Bytes :=
  if secret.length ≠ secretLength then
    .error (.valueError s!"secret must be {secretLength} bytes, got {secret.length}")
  else do
    let key ← EthKeys.privateKey secret
    return EthKeys.publicKey key

/-- Sign a 32-byte digest. -/
def sign (secret digest : Bytes) : Except PyError Bytes :=
  if secret.length ≠ secretLength then
    .error (.valueError s!"secret must be {secretLength} bytes, got {secret.length}")
  else do
    let key ← EthKeys.privateKey secret
    let digest ← checkHash digest
    return EthKeys.signMsgHash key digest

/-- Recover the compressed public key that produced a signature. -/
def recover (digest signature : Bytes) : Except PyError Bytes := do
  let _ ← checkHash digest
  let normalised ← normaliseRecoveryId signature
  match EthKeys.ecdsaRecover digest normalised with
  | .ok recovered => return recovered
  | .error raised => .error (.valueError s!"invalid signature: {raised.text}")

/-- Check that a signature recovers to the given compressed public key. -/
def verify (pubkey digest signature : Bytes) : Except PyError Bool := do
  let _ ← checkHash digest
  match recover digest signature with
  | .ok recovered => return decide (recovered = pubkey)
  | .error (.valueError _) => return false
  | .error raised => .error raised

/-- A key signs in 65 bytes with a plain recovery id, and recovery finds its public key. -/
structure Signs (key : EthKeys.PrivateKey) : Prop where
  length_signMsgHash : ∀ {digest}, digest.length = hashLength →
    (EthKeys.signMsgHash key digest).length = signatureLength
  recoveryId : ∀ {digest}, digest.length = hashLength →
    (EthKeys.signMsgHash key digest).getLastD 0 = 0 ∨
      (EthKeys.signMsgHash key digest).getLastD 0 = 1
  ecdsaRecover_signMsgHash : ∀ {digest}, digest.length = hashLength →
    EthKeys.ecdsaRecover digest (EthKeys.signMsgHash key digest) = .ok (EthKeys.publicKey key)

/-- The valid secrets are those of keys that sign. -/
structure Lawful (valid : Bytes → Prop) : Prop where
  length_secret : ∀ {secret}, valid secret → secret.length = secretLength
  privateKey : ∀ {secret}, valid secret → ∃ key, EthKeys.privateKey secret = .ok key ∧ Signs key

end Operations

/-! ## Recovery ids -/

theorem checkHash_eq_ok_iff {digest : Bytes} :
    checkHash digest = .ok digest ↔ digest.length = hashLength := by
  unfold checkHash
  split
  · rename_i wrong
    exact iff_of_false (fun accepted => by cases accepted) wrong
  · rename_i right
    exact iff_of_true rfl (not_not.mp right)

theorem normaliseRecoveryId_plain {signature : Bytes} (sized : signature.length = signatureLength)
    (plain : signature.getLastD 0 = 0 ∨ signature.getLastD 0 = 1) :
    normaliseRecoveryId signature = .ok signature := by
  have known : (signature.getLastD 0).toNat = 0 ∨ (signature.getLastD 0).toNat = 1 := by
    rcases plain with zero | one
    · exact Or.inl (by rw [zero]; rfl)
    · exact Or.inr (by rw [one]; rfl)
  have offset : ¬((signature.getLastD 0).toNat = recoveryIdOffset ∨
      (signature.getLastD 0).toNat = recoveryIdOffset + 1) := by
    unfold recoveryIdOffset
    omega
  rw [normaliseRecoveryId, if_neg (not_not_intro sized)]
  simp only
  rw [if_neg offset, if_pos known]

/-- The form with the offset is reduced to the form without it. -/
theorem normaliseRecoveryId_offset {body : Bytes} (sized : body.length + 1 = signatureLength)
    {recoveryId : UInt8} (plain : recoveryId = 0 ∨ recoveryId = 1) :
    normaliseRecoveryId (body ++ [recoveryId + 27]) = .ok (body ++ [recoveryId]) := by
  have length : (body ++ [recoveryId + 27]).length = signatureLength := by
    rw [List.length_append, List.length_singleton, sized]
  rw [normaliseRecoveryId, if_neg (not_not_intro length)]
  simp only [List.getLastD_concat, List.dropLast_concat]
  rcases plain with rfl | rfl
  · rfl
  · rfl

/-! ## Verification -/

section Verification

variable [EthKeys] {pubkey digest signature : Bytes}

/-- What recovery raises is a `ValueError`. -/
theorem recover_onlyRaises :
    OnlyRaises (fun raised => ∃ message, raised = PyError.valueError message)
      (recover digest signature) := by
  unfold recover checkHash normaliseRecoveryId
  refine OnlyRaises.bind ?_ fun _ => OnlyRaises.bind ?_ fun normalised => ?_
  · split
    · exact OnlyRaises.error ⟨_, rfl⟩
    · exact OnlyRaises.ok _
  · split
    · exact OnlyRaises.error ⟨_, rfl⟩
    · simp only
      split
      · exact OnlyRaises.ok _
      · split
        · exact OnlyRaises.ok _
        · exact OnlyRaises.error ⟨_, rfl⟩
  · split
    · exact OnlyRaises.ok _
    · exact OnlyRaises.error ⟨_, rfl⟩

/-- Over a digest of the right length verification never raises, and accepts exactly the
signatures the key is recovered from. -/
theorem verify_eq (sized : digest.length = hashLength) :
    verify pubkey digest signature = .ok (decide (recover digest signature = .ok pubkey)) := by
  rw [verify, checkHash_eq_ok_iff.mpr sized, ok_bind]
  cases recovered : recover digest signature with
  | ok key => simp [pure, Except.pure]
  | error raised =>
      obtain ⟨message, rfl⟩ := recover_onlyRaises raised recovered
      simp [pure, Except.pure]

theorem recover_eq_ok_iff (sized : digest.length = hashLength) :
    recover digest signature = .ok pubkey ↔
      ∃ normalised, normaliseRecoveryId signature = .ok normalised ∧
        EthKeys.ecdsaRecover digest normalised = .ok pubkey := by
  rw [recover, checkHash_eq_ok_iff.mpr sized, ok_bind, bind_eq_ok_iff]
  apply exists_congr
  intro normalised
  apply and_congr_right
  intro _
  cases EthKeys.ecdsaRecover digest normalised with
  | ok key => simp [pure, Except.pure]
  | error raised => simp

/-- A signature recovers to the public key it was made with. -/
theorem recover_signMsgHash {key : EthKeys.PrivateKey} (signs : Signs key)
    (sized : digest.length = hashLength) :
    recover digest (EthKeys.signMsgHash key digest) = .ok (EthKeys.publicKey key) :=
  (recover_eq_ok_iff sized).mpr ⟨_,
    normaliseRecoveryId_plain (signs.length_signMsgHash sized) (signs.recoveryId sized),
    signs.ecdsaRecover_signMsgHash sized⟩

section Secrets

variable {secret : Bytes} {key : EthKeys.PrivateKey}

theorem secretToPubkey_eq_ok (known : secret.length = secretLength)
    (made : EthKeys.privateKey secret = .ok key) :
    secretToPubkey secret = .ok (EthKeys.publicKey key) := by
  rw [secretToPubkey, if_neg (not_not_intro known), made]
  rfl

theorem sign_eq_ok (known : secret.length = secretLength)
    (made : EthKeys.privateKey secret = .ok key) (sized : digest.length = hashLength) :
    sign secret digest = .ok (EthKeys.signMsgHash key digest) := by
  rw [sign, if_neg (not_not_intro known), made, ok_bind, checkHash_eq_ok_iff.mpr sized]
  rfl

end Secrets

end Verification

end DvSpec.Secp256k1
