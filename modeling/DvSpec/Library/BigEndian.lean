import Mathlib.Algebra.Group.Nat.Defs
import Mathlib.Data.List.Induction

/-!
# Big-endian numbers

A number as its bytes, the most significant first, and back.  Bytes of one length
are known from their number.
-/

namespace DvSpec.Library

/-- The bytes of a number, most significant first. -/
def toBigEndian : Nat → Nat → List UInt8
  | 0, _ => []
  | length + 1, value => toBigEndian length (value / 256) ++ [UInt8.ofNat value]

/-- The number whose bytes are given, most significant first. -/
def fromBigEndian (data : List UInt8) : Nat :=
  data.foldl (fun value byte => value * 256 + byte.toNat) 0

theorem length_toBigEndian (length value : Nat) : (toBigEndian length value).length = length := by
  induction length generalizing value with
  | zero => rfl
  | succ length ih => rw [toBigEndian, List.length_append, ih, List.length_singleton]

theorem fromBigEndian_concat (data : List UInt8) (last : UInt8) :
    fromBigEndian (data ++ [last]) = fromBigEndian data * 256 + last.toNat := by
  rw [fromBigEndian, List.foldl_append]
  rfl

theorem fromBigEndian_toBigEndian {length value : Nat} (fits : value < 256 ^ length) :
    fromBigEndian (toBigEndian length value) = value := by
  induction length generalizing value with
  | zero =>
      rw [Nat.pow_zero, Nat.lt_one_iff] at fits
      exact fits.symm
  | succ length ih =>
      have high : value / 256 < 256 ^ length := by
        rw [Nat.pow_succ] at fits
        omega
      rw [toBigEndian, fromBigEndian_concat, ih high, UInt8.toNat_ofNat']
      omega

/-- Bytes of one length are known from their number. -/
theorem fromBigEndian_inj {one two : List UInt8} (sized : one.length = two.length)
    (equal : fromBigEndian one = fromBigEndian two) : one = two := by
  induction one using List.reverseRecOn generalizing two with
  | nil => exact (List.length_eq_zero_iff.mp sized.symm).symm
  | append_singleton front last ih =>
      rcases List.eq_nil_or_concat two with rfl | ⟨others, other, rfl⟩
      · rw [List.length_append] at sized
        cases sized
      · rw [List.concat_eq_append] at sized equal ⊢
        rw [fromBigEndian_concat, fromBigEndian_concat] at equal
        have small := last.toNat_lt
        have otherSmall := other.toNat_lt
        have sameLast : last = other := UInt8.toNat_inj.mp (by omega)
        have sameFront := ih (by simpa using sized) (by omega)
        rw [sameLast, sameFront]

end DvSpec.Library
