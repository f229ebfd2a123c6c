import DvSpec.Crypto.Reconstruction

/-!
# Signing, verifying and plain aggregation

Secrets are big-endian scalars.  The signature scheme belongs to the pairing library
and enters as a parameter; what the code relies on is the pairing equation that its
verification checks.  A key share signs as any key does, so a signature verifies
under a multiple of the generator exactly when it is the same multiple of the hashed
message.
-/

namespace DvSpec.Bls

open DvSpec.Library DvSpec.Library.Raising

/-- The proof-of-possession scheme of the pairing library. -/
class G2ProofOfPossession where
  skToPk : Nat → Bytes
  sign : Nat → Bytes → Bytes
  verify : Bytes → Bytes → Bytes → Bool
  aggregate : List Bytes → Except PyError Bytes
  fastAggregateVerify : List Bytes → Bytes → Bytes → Bool

def secretLength : Nat := 32

/-- Interpret secret key bytes as a scalar. -/
def secretToInt (secret : Bytes) : Except PyError Nat :=
  if secret.length ≠ secretLength then
    .error (.valueError s!"secret must be {secretLength} bytes, got {secret.length}")
  else
    let value := fromBigEndian secret
    if ¬(0 < value ∧ value < blsModulus) then .error (.valueError "secret out of range")
    else .ok value

section Operations

variable [G2ProofOfPossession]

/-- Derive the public key of a secret key or key share. -/
def secretToPubkey (secret : Bytes) : Except PyError Bytes := do
  let value ← secretToInt secret
  return G2ProofOfPossession.skToPk value

/-- Sign a message with a secret key or key share. -/
def sign (secret message : Bytes) : Except PyError Bytes := do
  let value ← secretToInt secret
  return G2ProofOfPossession.sign value message

/-- Verify a signature under a single public key or public share. -/
def verify (pubkey message signature : Bytes) : Bool :=
  G2ProofOfPossession.verify pubkey message signature

/-- Aggregate signatures with no coefficients, into a multi-signature. -/
def aggregate (signatures : List Bytes) : Except PyError Bytes :=
  if signatures.isEmpty then .error (.valueError "no signatures to aggregate")
  else G2ProofOfPossession.aggregate signatures

/-- Verify a multi-signature over one message against every signer's key. -/
def verifyAggregate (pubkeys : List Bytes) (message signature : Bytes) : Bool :=
  G2ProofOfPossession.fastAggregateVerify pubkeys message signature

end Operations

/-! ## Secrets -/

/-- Accepted secrets are 32 bytes of a nonzero scalar below the group order. -/
theorem secretToInt_eq_ok_iff {secret : Bytes} {value : Nat} :
    secretToInt secret = .ok value ↔
      secret.length = secretLength ∧ fromBigEndian secret = value ∧
        0 < value ∧ value < blsModulus := by
  unfold secretToInt
  by_cases sized : secret.length = secretLength
  · rw [if_neg (not_not_intro sized)]
    simp only
    by_cases inRange : 0 < fromBigEndian secret ∧ fromBigEndian secret < blsModulus
    · rw [if_neg (not_not_intro inRange), Except.ok.injEq]
      constructor
      · rintro rfl
        exact ⟨sized, rfl, inRange⟩
      · rintro ⟨-, equal, -⟩
        exact equal
    · rw [if_pos inRange]
      constructor
      · intro accepted
        cases accepted
      · rintro ⟨-, rfl, bounds⟩
        exact absurd bounds inRange
  · rw [if_pos sized]
    constructor
    · intro accepted
      cases accepted
    · rintro ⟨same, -⟩
      exact absurd same sized

/-- The 32 bytes of a scalar. -/
def secretBytes (value : ZMod blsModulus) : Bytes := toBigEndian secretLength value.val

/-- The scalar of a secret's bytes. -/
def secretScalar (secret : Bytes) : ZMod blsModulus := (fromBigEndian secret : Nat)

/-- Every nonzero scalar is read back from its bytes. -/
theorem secretToInt_secretBytes {value : ZMod blsModulus} (nonzero : value ≠ 0) :
    secretToInt (secretBytes value) = .ok value.val := by
  have below : value.val < blsModulus := ZMod.val_lt value
  have room : blsModulus ≤ 256 ^ secretLength := by decide +kernel
  refine secretToInt_eq_ok_iff.mpr ⟨length_toBigEndian _ _, ?_, ?_, below⟩
  · exact fromBigEndian_toBigEndian (Nat.lt_of_lt_of_le below room)
  · exact Nat.pos_of_ne_zero fun zero => nonzero ((ZMod.val_eq_zero value).mp zero)

/-! ## The scheme -/

section Scheme

variable [PyEcc] [G2ProofOfPossession] [AddCommGroup PyEcc.G1.Point] [AddCommGroup PyEcc.G2.Point]

/-- The pairing scheme: keys are multiples of the generator, signatures multiples of the
hashed message, and verification rejects the zero key and checks the pairing equation. -/
structure Scheme (Target : Type) [AddCommGroup Target] where
  generator : PyEcc.G1.Point
  hashToG2 : Bytes → PyEcc.G2.Point
  pairing : PyEcc.G2.Point →+ PyEcc.G1.Point →+ Target
  nondegenerate : ∀ point, pairing point generator = 0 → point = 0
  g1 : PyEcc.G1.Lawful
  g2 : PyEcc.G2.Lawful
  skToPk_eq : ∀ secret, G2ProofOfPossession.skToPk secret =
    PyEcc.G1.encode (PyEcc.G1.multiply generator secret)
  sign_eq : ∀ secret message, G2ProofOfPossession.sign secret message =
    PyEcc.G2.encode (PyEcc.G2.multiply (hashToG2 message) secret)
  verify_iff : ∀ pubkey message signature,
    G2ProofOfPossession.verify pubkey message signature = true ↔
      ∃ key, PyEcc.G1.decode pubkey = .ok key ∧ key ≠ 0 ∧
        ∃ point, PyEcc.G2.decode signature = .ok point ∧
          pairing point generator = pairing (hashToG2 message) key
  aggregate_eq : ∀ signatures points, signatures ≠ [] →
    signatures.mapM PyEcc.G2.decode = .ok points →
      G2ProofOfPossession.aggregate signatures = .ok (PyEcc.G2.encode points.sum)
  fastAggregateVerify_nil : ∀ message signature,
    G2ProofOfPossession.fastAggregateVerify [] message signature = false
  fastAggregateVerify_eq : ∀ pubkeys keys message signature, pubkeys ≠ [] →
    pubkeys.mapM PyEcc.G1.decode = .ok keys → (∀ key ∈ keys, key ≠ 0) →
      G2ProofOfPossession.fastAggregateVerify pubkeys message signature =
        G2ProofOfPossession.verify (PyEcc.G1.encode keys.sum) message signature

variable {Target : Type} [AddCommGroup Target]

namespace Scheme

/-- The public key of a scalar. -/
def pubkeyOf (scheme : Scheme Target) (value : ZMod blsModulus) : Bytes :=
  PyEcc.G1.encode (PyEcc.G1.multiply scheme.generator value.val)

/-- The signature of a message under a scalar. -/
def signatureOf (scheme : Scheme Target) (value : ZMod blsModulus) (message : Bytes) : Bytes :=
  PyEcc.G2.encode (PyEcc.G2.multiply (scheme.hashToG2 message) value.val)

/-- The bytes decode to the public key of a scalar. -/
def KeyOf (scheme : Scheme Target) (value : ZMod blsModulus) (pubkey : Bytes) : Prop :=
  PyEcc.G1.decode pubkey = .ok (PyEcc.G1.multiply scheme.generator value.val)

/-- The bytes decode to the signature of a message under a scalar. -/
def SignatureOf (scheme : Scheme Target) (value : ZMod blsModulus) (message signature : Bytes) :
    Prop :=
  PyEcc.G2.decode signature = .ok (PyEcc.G2.multiply (scheme.hashToG2 message) value.val)

variable (scheme : Scheme Target)

theorem keyOf_pubkeyOf (value : ZMod blsModulus) : scheme.KeyOf value (scheme.pubkeyOf value) :=
  scheme.g1.decode_encode _

theorem signatureOf_signatureOf (value : ZMod blsModulus) (message : Bytes) :
    scheme.SignatureOf value message (scheme.signatureOf value message) :=
  scheme.g2.decode_encode _

/-- The groups have more than one point, so the generator is not zero. -/
theorem generator_ne_zero : scheme.generator ≠ 0 := by
  intro zero
  have single : ∀ point : PyEcc.G2.Point, point = 0 := by
    intro point
    apply scheme.nondegenerate
    rw [zero, map_zero]
  have card : Nat.card PyEcc.G2.Point = 1 :=
    Nat.card_eq_one_iff_exists.mpr ⟨0, single⟩
  exact prime_blsModulus.one_lt.ne (card.symm.trans scheme.g2.card_eq)

/-- Different scalars have different keys. -/
theorem multiply_generator_inj {one two : ZMod blsModulus}
    (equal : PyEcc.G1.multiply scheme.generator one.val =
      PyEcc.G1.multiply scheme.generator two.val) : one = two := by
  let scalars := scheme.g1.module
  have multiple : ∀ value : ZMod blsModulus,
      PyEcc.G1.multiply scheme.generator value.val = value • scheme.generator := by
    intro value
    rw [scheme.g1.multiply_eq, ← Nat.cast_smul_eq_nsmul (ZMod blsModulus), ZMod.natCast_zmod_val]
  rw [multiple, multiple, ← sub_eq_zero, ← sub_smul] at equal
  by_contra different
  apply scheme.generator_ne_zero
  rw [← inv_smul_smul₀ (sub_ne_zero.mpr different) scheme.generator, equal, smul_zero]

theorem multiply_generator_eq_zero_iff {value : ZMod blsModulus} :
    PyEcc.G1.multiply scheme.generator value.val = 0 ↔ value = 0 := by
  have zero : PyEcc.G1.multiply scheme.generator (0 : ZMod blsModulus).val = 0 := by
    rw [ZMod.val_zero, scheme.g1.multiply_eq, zero_nsmul]
  rw [← zero]
  exact ⟨scheme.multiply_generator_inj, fun equal => equal ▸ rfl⟩

/-- The pairing is injective at the generator. -/
theorem pairing_generator_inj {one two : PyEcc.G2.Point} :
    scheme.pairing one scheme.generator = scheme.pairing two scheme.generator ↔ one = two := by
  constructor
  · intro equal
    apply sub_eq_zero.mp
    apply scheme.nondegenerate
    rw [map_sub, AddMonoidHom.sub_apply, equal, sub_self]
  · rintro rfl
    rfl

/-- Multiples move from the key to the hashed message. -/
theorem pairing_multiple (point : PyEcc.G2.Point) (n : Nat) :
    scheme.pairing point (PyEcc.G1.multiply scheme.generator n) =
      scheme.pairing (PyEcc.G2.multiply point n) scheme.generator := by
  rw [scheme.g1.multiply_eq, scheme.g2.multiply_eq, map_nsmul, map_nsmul, AddMonoidHom.nsmul_apply]

/-- A signature verifies under a scalar's key iff the scalar is not zero and the
signature is the scalar's. -/
theorem verify_iff_signatureOf {value : ZMod blsModulus} {pubkey message signature : Bytes}
    (key : scheme.KeyOf value pubkey) :
    verify pubkey message signature = true ↔
      value ≠ 0 ∧ scheme.SignatureOf value message signature := by
  rw [verify, scheme.verify_iff]
  constructor
  · rintro ⟨other, decoded, nonzero, point, read, paired⟩
    cases key.symm.trans decoded
    rw [scheme.pairing_multiple] at paired
    refine ⟨fun zero => nonzero (scheme.multiply_generator_eq_zero_iff.mpr zero), ?_⟩
    rw [SignatureOf, read, scheme.pairing_generator_inj.mp paired]
  · rintro ⟨nonzero, read⟩
    refine ⟨_, key, fun zero => nonzero (scheme.multiply_generator_eq_zero_iff.mp zero), _, read, ?_⟩
    rw [scheme.pairing_multiple]

/-- The key of a nonzero scalar is derived from its bytes. -/
theorem secretToPubkey_secretBytes {value : ZMod blsModulus} (nonzero : value ≠ 0) :
    secretToPubkey (secretBytes value) = .ok (scheme.pubkeyOf value) := by
  rw [secretToPubkey, secretToInt_secretBytes nonzero, ok_bind, scheme.skToPk_eq]
  rfl

/-- Signing with the bytes of a nonzero scalar. -/
theorem sign_secretBytes {value : ZMod blsModulus} (nonzero : value ≠ 0) (message : Bytes) :
    sign (secretBytes value) message = .ok (scheme.signatureOf value message) := by
  rw [sign, secretToInt_secretBytes nonzero, ok_bind, scheme.sign_eq]
  rfl

/-- A derived key is that of its secret's scalar, which is not zero. -/
theorem keyOf_of_secretToPubkey {secret pubkey : Bytes}
    (derived : secretToPubkey secret = .ok pubkey) :
    secretScalar secret ≠ 0 ∧ scheme.KeyOf (secretScalar secret) pubkey := by
  obtain ⟨number, accepted, made⟩ := bind_eq_ok_iff.mp derived
  obtain ⟨-, rfl, positive, below⟩ := secretToInt_eq_ok_iff.mp accepted
  refine ⟨natCast_ne_zero positive below, ?_⟩
  rw [KeyOf, secretScalar, ZMod.val_cast_of_lt below, ← Except.ok.inj made, scheme.skToPk_eq]
  exact scheme.g1.decode_encode _

/-- What a secret signs is the signature of its scalar. -/
theorem signatureOf_of_sign {secret message signature : Bytes}
    (signed : sign secret message = .ok signature) :
    scheme.SignatureOf (secretScalar secret) message signature := by
  obtain ⟨number, accepted, made⟩ := bind_eq_ok_iff.mp signed
  obtain ⟨-, rfl, -, below⟩ := secretToInt_eq_ok_iff.mp accepted
  rw [SignatureOf, secretScalar, ZMod.val_cast_of_lt below, ← Except.ok.inj made, scheme.sign_eq]
  exact scheme.g2.decode_encode _

/-- A public key belongs to one scalar only. -/
theorem keyOf_unique {one two : ZMod blsModulus} {pubkey : Bytes} (first : scheme.KeyOf one pubkey)
    (second : scheme.KeyOf two pubkey) : one = two :=
  scheme.multiply_generator_inj (Except.ok.inj (first.symm.trans second))

/-- A public key is derived from one secret only. -/
theorem secretToPubkey_inj (scheme : Scheme Target) {one two pubkey : Bytes}
    (first : secretToPubkey one = .ok pubkey) (second : secretToPubkey two = .ok pubkey) :
    one = two := by
  have scalars := scheme.keyOf_unique (scheme.keyOf_of_secretToPubkey first).2
    (scheme.keyOf_of_secretToPubkey second).2
  obtain ⟨_, acceptedOne, -⟩ := bind_eq_ok_iff.mp first
  obtain ⟨_, acceptedTwo, -⟩ := bind_eq_ok_iff.mp second
  obtain ⟨sizedOne, rfl, -, belowOne⟩ := secretToInt_eq_ok_iff.mp acceptedOne
  obtain ⟨sizedTwo, rfl, -, belowTwo⟩ := secretToInt_eq_ok_iff.mp acceptedTwo
  have numbers := congrArg ZMod.val scalars
  rw [secretScalar, secretScalar, ZMod.val_cast_of_lt belowOne, ZMod.val_cast_of_lt belowTwo]
    at numbers
  exact fromBigEndian_inj (sizedOne.trans sizedTwo.symm) numbers

/-- The signature of a nonzero scalar verifies under its key. -/
theorem verify_signatureOf {value : ZMod blsModulus} (nonzero : value ≠ 0) (message : Bytes) :
    verify (scheme.pubkeyOf value) message (scheme.signatureOf value message) = true :=
  (scheme.verify_iff_signatureOf (scheme.keyOf_pubkeyOf value)).mpr
    ⟨nonzero, scheme.signatureOf_signatureOf value message⟩

/-! ## Plain aggregation -/

/-- The sum of the scalars of the given secrets. -/
def totalScalar (secrets : List Bytes) : ZMod blsModulus := (secrets.map secretScalar).sum

omit [PyEcc] [G2ProofOfPossession] [AddCommGroup PyEcc.G1.Point]
  [AddCommGroup PyEcc.G2.Point] in
theorem sum_multiples {curve : Curve} [AddCommGroup curve.Point] (lawful : curve.Lawful)
    (point : curve.Point) (values : List (ZMod blsModulus)) :
    (values.map fun value => curve.multiply point value.val).sum =
      curve.multiply point values.sum.val := by
  let scalars := lawful.module
  have multiple : ∀ value : ZMod blsModulus, curve.multiply point value.val = value • point := by
    intro value
    rw [lawful.multiply_eq, ← Nat.cast_smul_eq_nsmul (ZMod blsModulus), ZMod.natCast_zmod_val]
  simp only [multiple]
  exact List.sum_smul.symm

theorem decoded_keys {secrets pubkeys : List Bytes}
    (derived : secrets.mapM secretToPubkey = .ok pubkeys) :
    pubkeys.mapM PyEcc.G1.decode = .ok ((secrets.map secretScalar).map fun value =>
      PyEcc.G1.multiply scheme.generator value.val) := by
  rw [mapM_eq_ok_iff] at derived ⊢
  induction derived with
  | nil => exact List.Forall₂.nil
  | cons here later ih =>
      exact List.Forall₂.cons (scheme.keyOf_of_secretToPubkey here).2 ih

theorem decoded_signatures {secrets signatures : List Bytes} {message : Bytes}
    (signed : secrets.mapM (fun secret => sign secret message) = .ok signatures) :
    signatures.mapM PyEcc.G2.decode = .ok ((secrets.map secretScalar).map fun value =>
      PyEcc.G2.multiply (scheme.hashToG2 message) value.val) := by
  rw [mapM_eq_ok_iff] at signed ⊢
  induction signed with
  | nil => exact List.Forall₂.nil
  | cons here later ih => exact List.Forall₂.cons (scheme.signatureOf_of_sign here) ih

omit [PyEcc] [G2ProofOfPossession] [AddCommGroup PyEcc.G1.Point]
  [AddCommGroup PyEcc.G2.Point] in
theorem ne_nil_of_mapM {body : Bytes → Except PyError Bytes} {items results : List Bytes}
    (collected : items.mapM body = .ok results) (nonempty : items ≠ []) : results ≠ [] := by
  rw [mapM_eq_ok_iff] at collected
  cases collected with
  | nil => exact absurd rfl nonempty
  | cons here later => exact List.cons_ne_nil _ _

/-- The signatures of some secrets over a message add up to that of their total scalar. -/
theorem aggregate_of_secrets {secrets signatures : List Bytes} {message : Bytes}
    (signed : secrets.mapM (fun secret => sign secret message) = .ok signatures)
    (nonempty : secrets ≠ []) :
    aggregate signatures = .ok (scheme.signatureOf (totalScalar secrets) message) := by
  have some_signature := ne_nil_of_mapM signed nonempty
  have unfolded : ¬signatures.isEmpty = true := by
    rwa [List.isEmpty_iff]
  rw [aggregate, if_neg unfolded,
    scheme.aggregate_eq _ _ some_signature (scheme.decoded_signatures signed),
    sum_multiples scheme.g2]
  rfl

/-- A multi-signature verifies against the keys of some secrets iff their total scalar is not
zero and it is the signature of that scalar. -/
theorem verifyAggregate_of_secrets {secrets pubkeys : List Bytes} {message signature : Bytes}
    (derived : secrets.mapM secretToPubkey = .ok pubkeys) (nonempty : secrets ≠ []) :
    verifyAggregate pubkeys message signature = true ↔
      totalScalar secrets ≠ 0 ∧ scheme.SignatureOf (totalScalar secrets) message signature := by
  have nonzero : ∀ key ∈ (secrets.map secretScalar).map fun value =>
      PyEcc.G1.multiply scheme.generator value.val, key ≠ 0 := by
    intro key member zero
    obtain ⟨value, among, rfl⟩ := List.mem_map.mp member
    obtain ⟨secret, known, rfl⟩ := List.mem_map.mp among
    obtain ⟨pubkey, derives⟩ := forall_of_mapM_eq_ok derived secret known
    exact (scheme.keyOf_of_secretToPubkey derives).1 (scheme.multiply_generator_eq_zero_iff.mp zero)
  rw [verifyAggregate, scheme.fastAggregateVerify_eq _ _ _ _ (ne_nil_of_mapM derived nonempty)
    (scheme.decoded_keys derived) nonzero, sum_multiples scheme.g1]
  exact scheme.verify_iff_signatureOf (scheme.keyOf_pubkeyOf _)

end Scheme

end Scheme

end DvSpec.Bls
