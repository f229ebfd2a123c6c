import DvSpec.Encoding.Proto
import DvSpec.Library.PrefixCode

/-!
# The protobuf encoding can be read back

Varints end at their first byte without the high bit, so varints and
length-delimited fields are prefix codes; a field that is omitted when zero is
recognised by its tag.
-/

namespace DvSpec.Encoding

open DvSpec.Library

/-! ## Varints -/

theorem toNat_low {value : Nat} : (UInt8.ofNat (value % 128)).toNat = value % 128 := by
  rw [UInt8.toNat_ofNat']
  omega

theorem toNat_high {value : Nat} : (UInt8.ofNat (value % 128 + 128)).toNat = value % 128 + 128 := by
  rw [UInt8.toNat_ofNat']
  omega

theorem varintLoop_last {value : Nat} (last : value / 128 = 0) :
    varintLoop value = [UInt8.ofNat (value % 128)] := by
  rw [varintLoop, if_pos last]

theorem varintLoop_more {value : Nat} (more : ¬value / 128 = 0) :
    varintLoop value = UInt8.ofNat (value % 128 + 128) :: varintLoop (value / 128) := by
  rw [varintLoop, if_neg more]

theorem prefixCode_varintLoop : PrefixCode varintLoop := by
  intro one
  induction one using varintLoop.induct with
  | case1 one last =>
      intro two rest other equal
      rw [varintLoop_last last] at equal
      by_cases alsoLast : two / 128 = 0
      · rw [varintLoop_last alsoLast] at equal
        obtain ⟨byteEqual, remaining⟩ := List.cons.inj equal
        have low := congrArg UInt8.toNat byteEqual
        rw [toNat_low, toNat_low] at low
        exact ⟨by omega, remaining⟩
      · rw [varintLoop_more alsoLast] at equal
        obtain ⟨byteEqual, -⟩ := List.cons.inj equal
        have low := congrArg UInt8.toNat byteEqual
        rw [toNat_low, toNat_high] at low
        omega
  | case2 one more ih =>
      intro two rest other equal
      rw [varintLoop_more more] at equal
      by_cases last : two / 128 = 0
      · rw [varintLoop_last last] at equal
        obtain ⟨byteEqual, -⟩ := List.cons.inj equal
        have high := congrArg UInt8.toNat byteEqual
        rw [toNat_low, toNat_high] at high
        omega
      · rw [varintLoop_more last] at equal
        obtain ⟨byteEqual, later⟩ := List.cons.inj equal
        have high := congrArg UInt8.toNat byteEqual
        rw [toNat_high, toNat_high] at high
        obtain ⟨quotient, remaining⟩ := ih _ _ _ later
        exact ⟨by omega, remaining⟩

theorem varint_natCast (value : Nat) : varint value = varintLoop value := by
  rw [varint, if_neg (by omega), Int.toNat_natCast]

theorem prefixCode_varint : PrefixCode fun value : Nat => varint value := by
  intro one two rest other equal
  simp only [varint_natCast] at equal
  exact prefixCode_varintLoop one two rest other equal

theorem length_varintLoop_le {value count : Nat} (fits : value < 128 ^ (count + 1)) :
    (varintLoop value).length ≤ count + 1 := by
  induction count generalizing value with
  | zero =>
      have last : value / 128 = 0 := by omega
      rw [varintLoop, if_pos last]
      exact Nat.le_refl _
  | succ count ih =>
      rw [varintLoop]
      split
      · exact Nat.le_add_left 1 _
      · have smaller : value / 128 < 128 ^ (count + 1) := by
          rw [Nat.pow_succ] at fits
          omega
        have bound := ih smaller
        rw [List.length_cons]
        omega

/-! ## Fields -/

theorem prefixCode_lengthDelimited (fieldNumber : Nat) :
    PrefixCode (lengthDelimited fieldNumber) := by
  intro one two rest other equal
  simp only [lengthDelimited, List.append_assoc] at equal
  obtain ⟨length, remaining⟩ := prefixCode_varint _ _ _ _ (List.append_cancel_left equal)
  exact List.append_inj remaining length

/-- A field omitted when zero is read off a stream in which nothing else starts with its tag. -/
theorem varintField_append_inj {fieldNumber one two : Nat} {byte : UInt8}
    {rest other : Bytes} (key : tag fieldNumber wireTypeVarint = [byte])
    (apart : rest.head? ≠ some byte) (otherApart : other.head? ≠ some byte)
    (equal : varintField fieldNumber one ++ rest = varintField fieldNumber two ++ other) :
    one = two ∧ rest = other := by
  unfold varintField at equal
  rw [key] at equal
  split at equal
  · rename_i zero
    split at equal
    · rename_i alsoZero
      exact ⟨by omega, equal⟩
    · rw [List.nil_append] at equal
      exact absurd (congrArg List.head? equal) apart
  · split at equal
    · rw [List.nil_append] at equal
      exact absurd (congrArg List.head? equal).symm otherApart
    · rw [List.append_assoc, List.append_assoc] at equal
      exact prefixCode_varint _ _ _ _ (List.append_cancel_left equal)

/-- What a field omitted when zero starts with. -/
theorem head?_varintField_append {fieldNumber value : Nat} {byte wanted : UInt8} {rest : Bytes}
    (key : tag fieldNumber wireTypeVarint = [byte]) (different : byte ≠ wanted)
    (apart : rest.head? ≠ some wanted) :
    (varintField fieldNumber value ++ rest).head? ≠ some wanted := by
  unfold varintField
  rw [key]
  split
  · exact apart
  · intro head
    exact different (Option.some.inj head)

theorem length_varintField_le {fieldNumber value count : Nat} {byte : UInt8}
    (key : tag fieldNumber wireTypeVarint = [byte]) (fits : value < 128 ^ (count + 1)) :
    (varintField fieldNumber value).length ≤ count + 2 := by
  unfold varintField
  rw [key]
  split
  · exact Nat.zero_le _
  · have bound := length_varintLoop_le fits
    rw [List.length_append, varint_natCast, List.length_singleton]
    omega

theorem head?_lengthDelimited_append {fieldNumber : Nat} {byte : UInt8}
    (key : tag fieldNumber wireTypeLengthDelimited = [byte]) (payload rest : Bytes) :
    (lengthDelimited fieldNumber payload ++ rest).head? = some byte := by
  rw [lengthDelimited, key]
  rfl

/-- A field of fewer than 128 bytes has a one-byte length. -/
theorem length_lengthDelimited {fieldNumber : Nat} {byte : UInt8}
    (key : tag fieldNumber wireTypeLengthDelimited = [byte]) {payload : Bytes}
    (short : payload.length < 128) :
    (lengthDelimited fieldNumber payload).length = payload.length + 2 := by
  have last : payload.length / 128 = 0 := by omega
  rw [lengthDelimited, key, varint_natCast, varintLoop_last last]
  simp only [List.length_append, List.length_singleton]
  omega

theorem encodeDuty_injective : Function.Injective encodeDuty := by
  have typeInjective : ∀ one two : DutyType, one.toNat = two.toNat → one = two := by
    intro one two equal
    cases one <;> cases two <;> first | rfl | cases equal
  intro one two equal
  have slotKey : tag 1 wireTypeVarint = [8] := by decide +kernel
  have typeKey : tag 2 wireTypeVarint = [16] := by decide +kernel
  have apart : ∀ value : Nat, (varintField 2 value ++ []).head? ≠ some 8 := fun value =>
    head?_varintField_append typeKey (by decide) (by decide)
  rw [encodeDuty, encodeDuty, ← List.append_nil (varintField 2 one.type.toNat),
    ← List.append_nil (varintField 2 two.type.toNat)] at equal
  obtain ⟨slot, types⟩ := varintField_append_inj slotKey (apart _) (apart _) equal
  obtain ⟨type, -⟩ := varintField_append_inj typeKey (by decide) (by decide) types
  cases one
  cases two
  cases slot
  cases typeInjective _ _ type
  rfl

end DvSpec.Encoding
