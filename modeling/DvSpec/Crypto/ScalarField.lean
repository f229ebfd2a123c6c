import Mathlib.Data.List.Prime
import Mathlib.NumberTheory.LucasPrimality
import Mathlib.Tactic.NormNum.Prime
import Mathlib.Tactic.ReduceModChar

/-!
# The scalar field

The order `r` of the groups the interpolation runs in is prime, by Lucas's test
with base seven, so the integers modulo `r` form a field.
-/

namespace DvSpec.Bls

/-- Order `r` of the scalar field, the modulus for interpolation. -/
def blsModulus : Nat :=
  52435875175126190479447740508185965837690552500527637822603658699938581184513

/-- The odd prime factors of `r - 1`, with repetition. -/
def oddFactors : List Nat :=
  [3, 11, 19, 10177, 125527, 859267, 906349, 906349, 2508409, 2529403, 52437899, 254760293,
    254760293]

theorem prime_of_mem_oddFactors : ∀ factor ∈ oddFactors, factor.Prime := by
  simp only [oddFactors, List.forall_mem_cons, List.not_mem_nil, false_implies, implies_true,
    and_true]
  refine ⟨?_, ?_, ?_, ?_, ?_, ?_, ?_, ?_, ?_, ?_, ?_, ?_, ?_⟩ <;> norm_num

theorem blsModulus_sub_one : blsModulus - 1 = 2 ^ 32 * oddFactors.prod := by decide +kernel

theorem natCast_ne_one {modulus value : Nat} (reduced : value < modulus) (large : 1 < value) :
    (value : ZMod modulus) ≠ 1 := by
  rw [← Nat.cast_one, Ne, ZMod.natCast_eq_natCast_iff', Nat.mod_eq_of_lt reduced,
    Nat.mod_eq_of_lt (large.trans reduced)]
  exact Nat.ne_of_gt large

theorem seven_pow_ne_one : ∀ factor ∈ 2 :: oddFactors,
    (7 : ZMod blsModulus) ^ ((blsModulus - 1) / factor) ≠ 1 := by
  simp only [oddFactors, List.forall_mem_cons, List.not_mem_nil, false_implies, implies_true,
    and_true]
  refine ⟨?_, ?_, ?_, ?_, ?_, ?_, ?_, ?_, ?_, ?_, ?_, ?_, ?_, ?_⟩ <;>
    · unfold blsModulus
      norm_num only
      reduce_mod_char
      exact_mod_cast natCast_ne_one (by norm_num only) (by norm_num only)

theorem seven_pow_eq_one : (7 : ZMod blsModulus) ^ (blsModulus - 1) = 1 := by
  unfold blsModulus
  norm_num only
  reduce_mod_char

theorem prime_blsModulus : blsModulus.Prime := by
  refine lucas_primality blsModulus 7 seven_pow_eq_one ?_
  intro factor prime divides
  rw [blsModulus_sub_one, prime.dvd_mul] at divides
  apply seven_pow_ne_one
  rcases divides with power | odd
  · rw [(Nat.prime_dvd_prime_iff_eq prime Nat.prime_two).mp (prime.dvd_of_dvd_pow power)]
    exact List.mem_cons_self
  · obtain ⟨other, member, dividesOther⟩ := prime.prime.dvd_prod_iff.mp odd
    rw [(Nat.prime_dvd_prime_iff_eq prime (prime_of_mem_oddFactors other member)).mp dividesOther]
    exact List.mem_cons_of_mem _ member

instance : Fact blsModulus.Prime := ⟨prime_blsModulus⟩

/-- Different naturals below `r` are different scalars. -/
theorem natCast_injOn : Set.InjOn (Nat.cast : Nat → ZMod blsModulus) {n | n < blsModulus} := by
  intro first below second alsoBelow equal
  rw [ZMod.natCast_eq_natCast_iff'] at equal
  rwa [Nat.mod_eq_of_lt below, Nat.mod_eq_of_lt alsoBelow] at equal

theorem natCast_ne_zero {n : Nat} (positive : 1 ≤ n) (below : n < blsModulus) :
    (n : ZMod blsModulus) ≠ 0 := by
  intro zero
  have divides := (ZMod.natCast_eq_zero_iff n blsModulus).mp zero
  exact absurd (Nat.le_of_dvd positive divides) (Nat.not_le_of_lt below)

end DvSpec.Bls
