import DvSpec.Consensus.Protocol
import DvSpec.Encoding.MerkleTree
import DvSpec.Encoding.Parsing

/-!
# The signing root binds the message

The signed encoding lists the fields in order and always ends with both hashes, so
it can be read back and takes three or four chunks, a tree of depth two.
-/

namespace DvSpec.Consensus

open DvSpec.Encoding DvSpec.Library

/-! ## The signed encoding -/

/-- The value hash as signed: an absent one counts as the zero hash. -/
def QBFTMsg.signedHash (msg : QBFTMsg) : Bytes := msg.valueHash.getD zeroHash

theorem QBFTMsg.length_signedHash (msg : QBFTMsg) : msg.signedHash.length = 32 := by
  unfold signedHash
  cases found : msg.valueHash with
  | none => rfl
  | some hash => exact msg.length_valueHash hash found

/-- The signed fields after the peer index, the round and the prepared round. -/
def encodedHashes (msg : QBFTMsg) : Bytes :=
  lengthDelimited 11 msg.signedHash ++ lengthDelimited 12 msg.preparedValueHash

theorem encodeQbftMsg_unsigned (msg : QBFTMsg) : encodeQbftMsg msg false =
    varintField 1 msg.type.toNat ++ (lengthDelimited 2 (encodeDuty msg.duty) ++
      (varintField 3 msg.peerIdx ++ (varintField 4 msg.round ++
        (varintField 6 msg.preparedRound ++ encodedHashes msg)))) := by
  unfold encodeQbftMsg encodedHashes QBFTMsg.signedHash
  simp only [List.append_assoc]
  congr 5
  cases found : msg.valueHash with
  | none => cases msg.signature <;> rfl
  | some hash =>
      have length := msg.length_valueHash hash found
      have nonempty : hash ≠ [] := by
        rintro rfl
        cases length
      cases msg.signature <;> simp only [if_neg nonempty, Option.getD_some, Bool.false_eq_true,
        if_false, List.nil_append]

/-! ## Its length -/

/-- The integers of a message fit 64 bits. -/
structure FitsUint64 (msg : QBFTMsg) : Prop where
  slot : msg.duty.slot < 2 ^ 64
  peerIdx : msg.peerIdx < 2 ^ 64
  round : msg.round < 2 ^ 64
  preparedRound : msg.preparedRound < 2 ^ 64

theorem lt_128_pow {value : Nat} (fits : value < 2 ^ 64) : value < 128 ^ (9 + 1) :=
  Nat.lt_of_lt_of_le fits (by decide)

theorem key_type : tag 1 wireTypeVarint = [8] := by decide +kernel
theorem key_duty : tag 2 wireTypeLengthDelimited = [18] := by decide +kernel
theorem key_dutyType : tag 2 wireTypeVarint = [16] := by decide +kernel
theorem key_peerIdx : tag 3 wireTypeVarint = [24] := by decide +kernel
theorem key_round : tag 4 wireTypeVarint = [32] := by decide +kernel
theorem key_preparedRound : tag 6 wireTypeVarint = [48] := by decide +kernel
theorem key_valueHash : tag 11 wireTypeLengthDelimited = [90] := by decide +kernel
theorem key_preparedValueHash : tag 12 wireTypeLengthDelimited = [98] := by decide +kernel

theorem length_encodedHashes (msg : QBFTMsg) : (encodedHashes msg).length = 68 := by
  have value := msg.length_signedHash
  have prepared := msg.length_preparedValueHash
  rw [encodedHashes, List.length_append, length_lengthDelimited key_valueHash (by omega),
    length_lengthDelimited key_preparedValueHash (by omega), value, prepared]

theorem length_encodeQbftMsg {msg : QBFTMsg} (fits : FitsUint64 msg) :
    68 < (encodeQbftMsg msg false).length ∧ (encodeQbftMsg msg false).length ≤ 128 := by
  have typeSmall : msg.type.toNat < 128 ^ (0 + 1) := by cases msg.type <;> decide
  have dutySmall : msg.duty.type.toNat < 128 ^ (0 + 1) := by cases msg.duty.type <;> decide
  have type := length_varintField_le key_type typeSmall
  have slot := length_varintField_le key_type (lt_128_pow fits.slot)
  have dutyType := length_varintField_le key_dutyType dutySmall
  have duty : (encodeDuty msg.duty).length ≤ 13 := by
    rw [encodeDuty, List.length_append]
    omega
  have peerIdx := length_varintField_le key_peerIdx (lt_128_pow fits.peerIdx)
  have round := length_varintField_le key_round (lt_128_pow fits.round)
  have prepared := length_varintField_le key_preparedRound (lt_128_pow fits.preparedRound)
  have hashes := length_encodedHashes msg
  have dutyField := length_lengthDelimited key_duty (show (encodeDuty msg.duty).length < 128 by omega)
  rw [encodeQbftMsg_unsigned]
  simp only [List.length_append]
  omega

/-- Every signed encoding has a tree of depth two. -/
theorem treeDepth_encodeQbftMsg {msg : QBFTMsg} (fits : FitsUint64 msg) :
    treeDepth (encodeQbftMsg msg false) = 2 := by
  obtain ⟨least, most⟩ := length_encodeQbftMsg fits
  have chunks : (chunkify (encodeQbftMsg msg false)).length = 3 ∨
      (chunkify (encodeQbftMsg msg false)).length = 4 := by
    rw [length_chunkify]
    omega
  rcases chunks with three | four
  · rw [treeDepth, three]
    decide
  · rw [treeDepth, four]
    decide

/-! ## Reading it back -/

/-- Two messages agree on every signed field. -/
structure SameSigned (one two : QBFTMsg) : Prop where
  type : one.type = two.type
  duty : one.duty = two.duty
  peerIdx : one.peerIdx = two.peerIdx
  round : one.round = two.round
  preparedRound : one.preparedRound = two.preparedRound
  preparedValueHash : one.preparedValueHash = two.preparedValueHash
  signedHash : one.signedHash = two.signedHash

theorem msgType_toNat_injective : Function.Injective MsgType.toNat := by
  intro one two equal
  cases one <;> cases two <;> first | rfl | cases equal

theorem head?_encodedHashes (msg : QBFTMsg) (rest : Bytes) :
    (encodedHashes msg ++ rest).head? = some 90 := by
  rw [encodedHashes, List.append_assoc]
  exact head?_lengthDelimited_append key_valueHash _ _

/-- Encodings that agree up to trailing zeros carry the same signed fields. -/
theorem sameSigned_of_append_zeros {one two : QBFTMsg} {rest other : Bytes}
    (equal : encodeQbftMsg one false ++ rest = encodeQbftMsg two false ++ other) :
    SameSigned one two := by
  have hashes : ∀ (msg : QBFTMsg) (byte : UInt8) (rest : Bytes), byte ≠ 90 →
      (encodedHashes msg ++ rest).head? ≠ some byte := by
    intro msg byte rest different head
    rw [head?_encodedHashes] at head
    exact different (Option.some.inj head).symm
  have prepared : ∀ (msg : QBFTMsg) (byte : UInt8) (rest : Bytes), byte ≠ 90 → 48 ≠ byte →
      (varintField 6 msg.preparedRound ++ (encodedHashes msg ++ rest)).head? ≠ some byte :=
    fun msg byte rest last different =>
      head?_varintField_append key_preparedRound different (hashes msg byte rest last)
  have rounds : ∀ (msg : QBFTMsg) (byte : UInt8) (rest : Bytes), byte ≠ 90 → 48 ≠ byte →
      32 ≠ byte → (varintField 4 msg.round ++ (varintField 6 msg.preparedRound ++
        (encodedHashes msg ++ rest))).head? ≠ some byte :=
    fun msg byte rest last next different =>
      head?_varintField_append key_round different (prepared msg byte rest last next)
  have duty : ∀ (payload rest : Bytes), (lengthDelimited 2 payload ++ rest).head? ≠ some 8 := by
    intro payload rest head
    rw [head?_lengthDelimited_append key_duty] at head
    exact absurd (Option.some.inj head) (by decide)
  simp only [encodeQbftMsg_unsigned, List.append_assoc] at equal
  obtain ⟨type, afterType⟩ := varintField_append_inj key_type (duty _ _) (duty _ _) equal
  obtain ⟨dutyBytes, afterDuty⟩ := prefixCode_lengthDelimited 2 _ _ _ _ afterType
  obtain ⟨peerIdx, afterPeer⟩ := varintField_append_inj key_peerIdx
    (rounds one 24 rest (by decide) (by decide) (by decide))
    (rounds two 24 other (by decide) (by decide) (by decide)) afterDuty
  obtain ⟨round, afterRound⟩ := varintField_append_inj key_round
    (prepared one 32 rest (by decide) (by decide)) (prepared two 32 other (by decide) (by decide))
    afterPeer
  obtain ⟨preparedRound, afterPrepared⟩ := varintField_append_inj key_preparedRound
    (hashes one 48 rest (by decide)) (hashes two 48 other (by decide)) afterRound
  simp only [encodedHashes, List.append_assoc] at afterPrepared
  obtain ⟨signedHash, afterValue⟩ := prefixCode_lengthDelimited 11 _ _ _ _ afterPrepared
  obtain ⟨preparedValueHash, -⟩ := prefixCode_lengthDelimited 12 _ _ _ _ afterValue
  exact ⟨msgType_toNat_injective type, encodeDuty_injective dutyBytes, peerIdx, round,
    preparedRound, preparedValueHash, signedHash⟩

/-! ## The root -/

theorem encodeQbftMsg_congr {one two : QBFTMsg} (same : SameSigned one two) :
    encodeQbftMsg one false = encodeQbftMsg two false := by
  rw [encodeQbftMsg_unsigned, encodeQbftMsg_unsigned, encodedHashes, encodedHashes, same.type,
    same.duty, same.peerIdx, same.round, same.preparedRound, same.preparedValueHash,
    same.signedHash]

/-- Two messages with 64-bit integers have one signing root iff they agree on every signed
field, SHA-256 being injective on the 64-byte inputs of their two trees; and no signature
influences the root. -/
theorem qbftSigningRoot_binding [Crypto] (one two : QBFTMsg) (fitsOne : FitsUint64 one)
    (fitsTwo : FitsUint64 two)
    (free : CollisionFree Crypto.sha256 (treeInputs Crypto.sha256 (encodeQbftMsg one false) ++
      treeInputs Crypto.sha256 (encodeQbftMsg two false))) :
    (qbftSigningRoot one = qbftSigningRoot two ↔ SameSigned one two) ∧
      ∀ signature : Option Bytes,
        qbftSigningRoot { one with signature := signature } = qbftSigningRoot one := by
  refine ⟨⟨?_, ?_⟩, ?_⟩
  · intro equal
    have depth := (treeDepth_encodeQbftMsg fitsOne).trans (treeDepth_encodeQbftMsg fitsTwo).symm
    obtain ⟨first, second, padded⟩ := append_zeros_of_getD_eq
      (getD_eq_of_hashProto_eq Crypto.length_sha256 depth free equal)
    exact sameSigned_of_append_zeros padded
  · intro same
    rw [qbftSigningRoot, qbftSigningRoot, encodeQbftMsg_congr same]
  · intro signature
    have same : SameSigned { one with signature := signature } one :=
      ⟨rfl, rfl, rfl, rfl, rfl, rfl, rfl⟩
    rw [qbftSigningRoot, qbftSigningRoot, encodeQbftMsg_congr same]

/-- The first 64 bytes that are signed of a sample vote. -/
def voteStart (round : UInt8) : Bytes :=
  [8, 2, 18, 4, 8, 1, 16, 2, 32, round, 90, 32] ++ List.replicate 32 7 ++ [98, 32] ++
    List.replicate 18 0

/-- The SHA-256 digest of 64 zeros. -/
def zerosDigest : Bytes :=
  [245, 165, 253, 66, 209, 106, 32, 48, 39, 152, 239, 110, 211, 9, 151, 155, 67, 0, 61, 35, 32,
    217, 240, 232, 234, 152, 49, 169, 39, 89, 251, 75]

/-- The SHA-256 digest of the start of the vote in round one. -/
def firstDigest : Bytes :=
  [65, 28, 104, 239, 31, 254, 183, 238, 233, 101, 106, 92, 42, 118, 43, 247, 142, 35, 127, 237,
    216, 203, 164, 108, 16, 94, 182, 152, 251, 193, 69, 233]

/-- The SHA-256 digest of the start of the vote in round two. -/
def secondDigest : Bytes :=
  [237, 2, 143, 241, 187, 11, 143, 152, 134, 9, 175, 239, 120, 75, 228, 232, 94, 221, 133, 48,
    64, 146, 119, 239, 224, 124, 191, 6, 101, 221, 48, 55]

/-- SHA-256 on the inputs of the two trees. -/
def voteDigests : List (Bytes × Bytes) :=
  [(List.replicate 64 0, zerosDigest), (voteStart 1, firstDigest), (voteStart 2, secondDigest),
    (firstDigest ++ zerosDigest,
      [190, 161, 0, 127, 242, 45, 22, 128, 23, 214, 13, 252, 172, 245, 136, 204, 175, 162, 185,
        121, 167, 148, 40, 78, 14, 194, 60, 23, 30, 114, 59, 211]),
    (secondDigest ++ zerosDigest,
      [49, 217, 251, 40, 236, 109, 143, 50, 150, 113, 215, 80, 108, 213, 143, 194, 42, 147, 224,
        155, 204, 20, 236, 4, 70, 118, 242, 237, 53, 3, 17, 113])]

/-- Primitives that hash sample votes as SHA-256 does. -/
@[reducible]
def voteCrypto : Crypto where
  sha256 := knownDigests voteDigests
  length_sha256 := length_knownDigests voteDigests
  signMsgHash _ _ := List.replicate 65 0

theorem fitsUint64_firstVote : FitsUint64 (FourPeers.vote .prepare 0 1 7) :=
  ⟨by decide, by decide, by decide, by decide⟩

theorem fitsUint64_secondVote : FitsUint64 (FourPeers.vote .prepare 0 2 7) :=
  ⟨by decide, by decide, by decide, by decide⟩

/-- Votes that differ in the round have different signing roots. -/
theorem qbftSigningRoot_binding_rounds :
    @qbftSigningRoot voteCrypto (FourPeers.vote .prepare 0 1 7) ≠
      @qbftSigningRoot voteCrypto (FourPeers.vote .prepare 0 2 7) := by
  intro equal
  have same := (@qbftSigningRoot_binding voteCrypto (FourPeers.vote .prepare 0 1 7)
    (FourPeers.vote .prepare 0 2 7) fitsUint64_firstVote fitsUint64_secondVote
    (by decide +kernel)).1.mp equal
  exact absurd same.round (by decide)

end DvSpec.Consensus
