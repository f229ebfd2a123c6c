import DvSpec.Crypto.Sha256
import DvSpec.Encoding.Proto

/-!
# The hash of a broadcast payload

The type URL and the value are hashed one behind the other.  Without collisions the
hash identifies their concatenation, and the payload as soon as the length of the
type URL is known.
-/

namespace DvSpec.ReliableBcast

open DvSpec.Encoding

/-- Minimal "Any" envelope. -/
structure AnyMessage where
  typeUrl : String
  value : Bytes
  deriving DecidableEq

variable (sha256 : Bytes → Bytes)

/-- What is hashed of a message. -/
def AnyMessage.hashed (anyMsg : AnyMessage) : Bytes := utf8 anyMsg.typeUrl ++ anyMsg.value

/-- The hash of a message, as SHA256(type_url || value). -/
def computeAnyHash (anyMsg : AnyMessage) : Bytes := sha256 anyMsg.hashed

/-- The second message has a longer type URL, by a first part of the value. -/
def MovesToType (moved : Bytes) (one two : AnyMessage) : Prop :=
  utf8 two.typeUrl = utf8 one.typeUrl ++ moved ∧ one.value = moved ++ two.value

/-- Two messages are hashed alike iff one moves a first part of the value to the type URL. -/
theorem AnyMessage.hashed_eq_iff {one two : AnyMessage} :
    one.hashed = two.hashed ↔ ∃ moved, MovesToType moved one two ∨ MovesToType moved two one := by
  rw [hashed, hashed, List.append_eq_append_iff, exists_or]
  rfl

/-- Nothing is moved between type URLs of one length. -/
theorem MovesToType.eq {moved : Bytes} {one two : AnyMessage} (moves : MovesToType moved one two)
    (sized : (utf8 one.typeUrl).length = (utf8 two.typeUrl).length) : one = two := by
  obtain ⟨typeUrl, value⟩ := moves
  have none : moved = [] := by
    rw [typeUrl, List.length_append] at sized
    exact List.eq_nil_of_length_eq_zero (by omega)
  rw [none, List.append_nil] at typeUrl
  rw [none, List.nil_append] at value
  cases one
  cases two
  exact AnyMessage.mk.injEq _ _ _ _ ▸ ⟨(utf8_injective typeUrl).symm, value⟩

/-- Without a collision between two messages, they have one hash iff one moves a first part
of the value to the type URL; with type URLs of one length, iff they are equal. -/
theorem computeAnyHash_eq_iff {one two : AnyMessage}
    (free : sha256 one.hashed = sha256 two.hashed → one.hashed = two.hashed) :
    (computeAnyHash sha256 one = computeAnyHash sha256 two ↔
        ∃ moved, MovesToType moved one two ∨ MovesToType moved two one) ∧
      ((utf8 one.typeUrl).length = (utf8 two.typeUrl).length →
        (computeAnyHash sha256 one = computeAnyHash sha256 two ↔ one = two)) := by
  have hashes : computeAnyHash sha256 one = computeAnyHash sha256 two ↔
      ∃ moved, MovesToType moved one two ∨ MovesToType moved two one := by
    rw [← AnyMessage.hashed_eq_iff]
    exact ⟨free, congrArg sha256⟩
  refine ⟨hashes, fun sized => ⟨fun equal => ?_, congrArg (computeAnyHash sha256)⟩⟩
  obtain ⟨moved, forward | backward⟩ := hashes.mp equal
  · exact forward.eq sized
  · exact (backward.eq sized.symm).symm

/-- Two values of one type have different SHA-256 hashes. -/
theorem computeAnyHash_eq_iff_values :
    computeAnyHash Sha256.sha256 { typeUrl := "ab", value := [99] } ≠
      computeAnyHash Sha256.sha256 { typeUrl := "ab", value := [100] } := by
  have distinct := (@computeAnyHash_eq_iff Sha256.sha256 { typeUrl := "ab", value := [99] }
    { typeUrl := "ab", value := [100] } fun equal => absurd equal (by decide +kernel)).2 rfl
  exact distinct.not.mpr (by decide)

/-- Without a collision, one byte of the value counts as a part of the type URL. -/
theorem computeAnyHash_moved :
    ¬ ∀ one two : AnyMessage,
      (Sha256.sha256 one.hashed = Sha256.sha256 two.hashed → one.hashed = two.hashed) →
        computeAnyHash Sha256.sha256 one = computeAnyHash Sha256.sha256 two →
          one.typeUrl = two.typeUrl ∧ one.value = two.value := by
  intro identifies
  have same : AnyMessage.hashed { typeUrl := "ab", value := [99] } =
      AnyMessage.hashed { typeUrl := "a", value := [98, 99] } := by decide +kernel
  exact absurd (identifies _ _ (fun _ => same) (congrArg Sha256.sha256 same)).2 (by decide)

end DvSpec.ReliableBcast
