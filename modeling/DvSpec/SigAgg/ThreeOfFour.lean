import DvSpec.Crypto.Tabulated
import DvSpec.SigAgg.Pipeline
import Mathlib.Algebra.Polynomial.Degree.Lemmas

/-!
# A key shared three of four

Four nodes hold shares of one key on a polynomial of degree two.  One of them sees its
own partial signature, a stolen one and those of two peers.
-/

namespace DvSpec.SigAgg

open DvSpec.Library DvSpec.Bls Polynomial

@[reducible]
def sharedPyEcc : PyEcc := tabulatedPyEcc sharedKeys sharedSignatures

@[reducible]
def sharedLibrary : G2ProofOfPossession :=
  tabulatedProofOfPossession sharedKeys sharedSignatures

theorem sharedSecrets_lt {index : Nat} (few : index < 5) :
    sharedSecrets.getD index 0 < blsModulus := by
  revert index
  decide +kernel

/-- The polynomial of degree two the shares lie on. -/
noncomputable def sharedPolynomial : (ZMod blsModulus)[X] :=
  C (0xab49c141e70d661399f6867ad151b7af23cfbc274c73a87aa9bacf7a55e77ec : ZMod blsModulus) * X ^ 2 +
    C (0xcd157a7fc5cd4eeccf29802e757ebdcccfedbb8e91841b01733bfb7ca544e2a : ZMod blsModulus) * X +
      C (0x598d4150de5b558716e1ca4df2853d696c1cc47f3af380d9ac3db876ebd038c5 : ZMod blsModulus)

/-- The shares are the polynomial's values, the secret its value at zero. -/
theorem eval_sharedPolynomial {index : Nat} (few : index < 5) :
    sharedPolynomial.eval (scalar index) = ((sharedSecrets.getD index 0 : Nat) : ZMod blsModulus) := by
  have value : sharedPolynomial.eval (scalar index) =
      ((0xab49c141e70d661399f6867ad151b7af23cfbc274c73a87aa9bacf7a55e77ec * index ^ 2 +
        0xcd157a7fc5cd4eeccf29802e757ebdcccfedbb8e91841b01733bfb7ca544e2a * index +
        0x598d4150de5b558716e1ca4df2853d696c1cc47f3af380d9ac3db876ebd038c5 : Nat) :
          ZMod blsModulus) := by
    simp [sharedPolynomial, scalar]
  rw [value, ZMod.natCast_eq_natCast_iff']
  clear value
  revert index
  decide +kernel

/-- The public share of each node. -/
def sharedPublicShares : Dict Nat Bytes :=
  Dict.ofEntries ([1, 2, 3, 4].map fun index =>
    (index, toBigEndian 48 (tabulatedCode sharedKeys (sharedSecrets.getD index 0))))

@[reducible]
def sharedKeyGroup : AddCommGroup sharedPyEcc.G1.Point := logarithms

@[reducible]
def sharedSignatureGroup : AddCommGroup sharedPyEcc.G2.Point := logarithms

attribute [local instance] sharedPyEcc sharedLibrary sharedKeyGroup sharedSignatureGroup

/-- The scheme of the shared key. -/
def sharedScheme : Scheme (ZMod blsModulus) :=
  tabulatedScheme sharedKeys_tabulates sharedSignatures_tabulates

theorem pubkeyOf_shared {index : Nat} (few : index < 5) :
    sharedScheme.pubkeyOf (sharedPolynomial.eval (scalar index)) =
      toBigEndian 48 (tabulatedCode sharedKeys (sharedSecrets.getD index 0)) := by
  rw [eval_sharedPolynomial few]
  exact encode_multiple_one (sharedSecrets_lt few)

theorem secret_sharedPolynomial :
    sharedPolynomial.eval 0 = ((sharedSecrets.getD 0 0 : Nat) : ZMod blsModulus) := by
  rw [← eval_sharedPolynomial (by decide), scalar, Nat.cast_zero]

theorem get?_sharedPublicShares {index : Nat} (known : index ∈ sharedPublicShares.keys) :
    sharedPublicShares.get? index =
      some (toBigEndian 48 (tabulatedCode sharedKeys (sharedSecrets.getD index 0))) := by
  revert index
  decide +kernel

theorem sharedPublicShares_lt {index : Nat} (known : index ∈ sharedPublicShares.keys) :
    index < 5 := by
  revert index
  decide +kernel

/-- The shared key of the four nodes. -/
noncomputable def threeOfFour : Sharing sharedScheme (recommendedThreshold 4) where
  polynomial := sharedPolynomial
  publicShares := sharedPublicShares
  degree_lt := lt_of_le_of_lt degree_quadratic_le (by decide)
  secret_ne_zero := by
    rw [secret_sharedPolynomial]
    exact natCast_ne_zero (by decide +kernel) (by decide +kernel)
  positive := by decide +kernel
  below := by decide +kernel
  keyOf := by
    intro index pubshare stored
    have known := (Dict.mem_keys_iff sharedPublicShares index).mpr ⟨pubshare, stored⟩
    have few := sharedPublicShares_lt known
    rw [get?_sharedPublicShares known, ← pubkeyOf_shared few, Option.some.injEq] at stored
    rw [← stored]
    exact sharedScheme.keyOf_pubkeyOf _

/-- The message root the four nodes sign. -/
def commonRoot : Bytes := List.replicate 32 7

/-- The signature of the common message under the share of `signer`. -/
def signatureBy (signer : Nat) : Bytes :=
  toBigEndian 96 (tabulatedCode sharedSignatures (sharedSecrets.getD (signer + 1) 0))

theorem length_commonRoot : commonRoot.length = 32 := rfl

theorem length_signatureBy (signer : Nat) : (signatureBy signer).length = 96 :=
  length_toBigEndian _ _

theorem one_le_succ (peer : Nat) : 1 ≤ peer + 1 := Nat.le_add_left 1 peer

/-- A partial signature over the common message, made with the share of `signer` and
claiming the share index of `peer`. -/
def partialOf (peer signer : Nat) : PartialSignature where
  shareIdx := peer + 1
  signature := signatureBy signer
  messageRoot := commonRoot
  one_le_shareIdx := one_le_succ peer
  length_signature := length_signatureBy signer
  length_messageRoot := length_commonRoot

/-- The partial signature of one node. -/
def sharedPartial (peer : Nat) : PartialSignature := partialOf peer peer

/-- The node's own signature, a stolen one and two of its peers'. -/
def sharedArrivals : List Arrival :=
  [.own (sharedPartial 0), .received (partialOf 1 2), .received (sharedPartial 2),
    .received (sharedPartial 3)]

theorem signatureOf_shared {index : Nat} (few : index < 5) (message : Bytes) :
    sharedScheme.signatureOf (sharedPolynomial.eval (scalar index)) message =
      toBigEndian 96 (tabulatedCode sharedSignatures (sharedSecrets.getD index 0)) := by
  rw [eval_sharedPolynomial few]
  exact encode_multiple_one (sharedSecrets_lt few)

theorem share_ne_zero {index : Nat} (few : index < 5) :
    sharedPolynomial.eval (scalar index) ≠ 0 := by
  rw [eval_sharedPolynomial few]
  refine natCast_ne_zero ?_ (sharedSecrets_lt few)
  revert index
  decide +kernel

/-- Every node's partial signature is made with its share. -/
theorem sign_sharedPartial {peer : Nat} (few : peer < 4) (message : Bytes) :
    sign (secretBytes (threeOfFour.share (peer + 1))) message =
      .ok (sharedPartial peer).signature := by
  have signs := sharedScheme.sign_secretBytes (share_ne_zero (Nat.succ_lt_succ few)) message
  rwa [signatureOf_shared (Nat.succ_lt_succ few)] at signs

theorem signedByShare_shared {peer : Nat} (few : peer < 4) (signingRoot : Bytes → Bytes) :
    SignedByShare threeOfFour.publicShares signingRoot (sharedPartial peer) := by
  have known : peer + 1 ∈ sharedPublicShares.keys := by
    revert peer
    decide +kernel
  have stored := get?_sharedPublicShares known
  rw [← pubkeyOf_shared (Nat.succ_lt_succ few)] at stored
  exact ⟨_, _, verifyShareIdx_eq_ok_iff.mpr stored,
    sharedScheme.secretToPubkey_secretBytes (share_ne_zero (Nat.succ_lt_succ few)),
    sign_sharedPartial few _⟩

/-- The secret's signature over the common message. -/
theorem sign_sharedSecret (message : Bytes) :
    sign (secretBytes threeOfFour.secret) message =
      .ok (toBigEndian 96 (tabulatedCode sharedSignatures (sharedSecrets.getD 0 0))) := by
  have zero : threeOfFour.secret = sharedPolynomial.eval (scalar 0) := by
    rw [scalar, Nat.cast_zero]
    rfl
  have signs := sharedScheme.sign_secretBytes (@share_ne_zero 0 (by decide)) message
  rwa [signatureOf_shared (by decide), ← zero] at signs

/-- Its own signature and those of two peers, as another node sees them. -/
def otherArrivals : List Arrival :=
  [.own (sharedPartial 1), .received (sharedPartial 3), .received (sharedPartial 0)]

theorem ownSigned_shared (signingRoot : Bytes → Bytes) :
    OwnSigned threeOfFour.publicShares signingRoot sharedArrivals := by
  intro sig member
  simp only [sharedArrivals, List.mem_cons, List.not_mem_nil, Arrival.own.injEq, reduceCtorEq,
    or_false] at member
  rw [member]
  exact signedByShare_shared (by decide) _

theorem ownSigned_other (signingRoot : Bytes → Bytes) :
    OwnSigned threeOfFour.publicShares signingRoot otherArrivals := by
  intro sig member
  simp only [otherArrivals, List.mem_cons, List.not_mem_nil, Arrival.own.injEq, reduceCtorEq,
    or_false] at member
  rw [member]
  exact signedByShare_shared (by decide) _

end DvSpec.SigAgg
