import DvSpec.Consensus.Message
import DvSpec.Encoding.Proto

/-!
# Value hashes, signing roots and signatures

SHA-256 and the elliptic curve signature are supplied by libraries and enter as
parameters; everything around them is the code of the repository.
-/

namespace DvSpec.Consensus

open DvSpec.Encoding

/-- The library primitives: SHA-256, and the signature of a 32-byte digest under a
32-byte secret.  Secrets are taken in the range of the curve; the library raises for the
scalars outside of it. -/
class Crypto where
  sha256 : Bytes → Bytes
  length_sha256 : ∀ data, (sha256 data).length = 32
  signMsgHash : Bytes → Bytes → Bytes

/-- Primitives with constant answers, for runs on concrete messages. -/
@[reducible]
def constantCrypto : Crypto where
  sha256 _ := List.replicate 32 1
  length_sha256 _ := rfl
  signMsgHash _ _ := List.replicate 65 0

variable [Crypto]

/-- Hash of a consensus value, given as its deterministic protobuf encoding. -/
def hashValue (value : Bytes) : Bytes := hashProto Crypto.sha256 value

@[simp]
theorem length_hashValue (value : Bytes) : (hashValue value).length = 32 :=
  length_hashProto Crypto.length_sha256 value

/-- Encode a `QBFTMsg`; the duty and both hashes are always emitted. -/
def encodeQbftMsg (msg : QBFTMsg) (includeSignature : Bool) : Bytes :=
  varintField 1 msg.type.toNat ++
    lengthDelimited 2 (encodeDuty msg.duty) ++
    varintField 3 msg.peerIdx ++
    varintField 4 msg.round ++
    varintField 6 msg.preparedRound ++
    (match msg.signature with
      | some signature => if includeSignature then bytesField 8 signature else []
      | none => []) ++
    lengthDelimited 11 (match msg.valueHash with
      | some hash => if hash = [] then zeroChunk else hash
      | none => zeroChunk) ++
    lengthDelimited 12 msg.preparedValueHash

/-- The 32 bytes a `QBFTMsg` signature is computed over. -/
def qbftSigningRoot (msg : QBFTMsg) : Bytes :=
  hashProto Crypto.sha256 (encodeQbftMsg msg false)

/-- Sign a 32-byte digest. -/
def sign (message privateKey : Bytes) : Except PyError Bytes :=
  if privateKey.length ≠ 32 then
    .error (.valueError s!"secret must be 32 bytes, got {privateKey.length}")
  else if message.length ≠ 32 then
    .error (.valueError s!"hash must be 32 bytes, got {message.length}")
  else .ok (Crypto.signMsgHash privateKey message)

theorem sign_signingRoot {privateKey : Bytes} (secret : privateKey.length = 32) (msg : QBFTMsg) :
    sign (qbftSigningRoot msg) privateKey =
      .ok (Crypto.signMsgHash privateKey (qbftSigningRoot msg)) := by
  have digest : (qbftSigningRoot msg).length = 32 :=
    length_hashProto Crypto.length_sha256 _
  rw [sign, if_neg (not_not_intro secret), if_neg (not_not_intro digest)]

end DvSpec.Consensus
