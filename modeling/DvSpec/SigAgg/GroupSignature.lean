import DvSpec.Crypto.Reconstruction
import DvSpec.SigAgg.Aggregation

/-!
# Any quorum reconstructs the group signature

Shares of one polynomial, taken at any sufficiently many distinct share indices and
listed in any order, interpolate to the same point at zero.
-/

namespace DvSpec.SigAgg

open DvSpec.Library DvSpec.Library.Interpolation DvSpec.Bls Polynomial

/-- Multiplying by the representative of a scalar is scalar multiplication. -/
theorem multiply_val {curve : Curve} [AddCommGroup curve.Point]
    [Module (ZMod blsModulus) curve.Point] (lawful : curve.Lawful) (point : curve.Point)
    (value : ZMod blsModulus) : curve.multiply point value.val = value • point := by
  rw [lawful.multiply_eq, ← Nat.cast_smul_eq_nsmul (ZMod blsModulus), ZMod.natCast_zmod_val]

/-- The encoded multiples of a point by a polynomial's values interpolate to the multiple by
its value at zero. -/
theorem interpolateEncoded_multiples {curve : Curve} [AddCommGroup curve.Point]
    (lawful : curve.Lawful) {f : (ZMod blsModulus)[X]} {indices : List Nat}
    (valid : ShareIndices indices) (degree : f.degree < indices.length) (nonempty : indices ≠ [])
    {point : curve.Point} {shares : Dict Nat Bytes} (keys : shares.keys.Perm indices)
    (holds : ∀ index ∈ indices, shares.get? index =
      some (curve.encode (curve.multiply point (f.eval (scalar index)).val))) :
    interpolateEncoded curve shares =
      .ok (curve.encode (curve.multiply point (f.eval 0).val)) := by
  let scalars := lawful.module
  have size : indices.toFinset.card = indices.length :=
    List.toFinset_card_of_nodup valid.distinct
  have decodes : ∀ index ∈ indices, ∃ data, shares.get? index = some data ∧
      curve.decode data = .ok (f.eval (scalar index) • point) := by
    intro index member
    refine ⟨_, holds index member, ?_⟩
    rw [lawful.decode_encode, multiply_val lawful]
  rw [interpolateEncoded_spec lawful valid keys nonempty decodes,
    combine_eval_smul valid.injective (size ▸ degree), multiply_val lawful]

/-- Over distinct share indices below the group order, at least as many as the threshold,
every coefficient is computed and reduced, the coefficients recover the value at zero of
every polynomial of degree below the threshold, and its encoded shares in either group
aggregate to the same group signature or key, in whatever order they are listed. -/
theorem any_quorum_reconstructs [PyEcc] [AddCommGroup PyEcc.G1.Point]
    [AddCommGroup PyEcc.G2.Point] (g1 : PyEcc.G1.Lawful) (g2 : PyEcc.G2.Lawful) (threshold : Nat)
    (positive : 1 ≤ threshold) (f : (ZMod blsModulus)[X]) (degree : f.degree < threshold)
    (indices : List Nat) (valid : ShareIndices indices) (enough : threshold ≤ indices.length) :
    (∃ coefficient : Nat → Nat,
      (∀ index ∈ indices, lagrangeCoefficient index indices = .ok (coefficient index) ∧
        coefficient index < blsModulus) ∧
      aggregationCoefficients indices =
        .ok (Dict.ofEntries (indices.map fun index => (index, coefficient index))) ∧
      (indices.map fun index =>
        (coefficient index : ZMod blsModulus) * f.eval (scalar index)).sum = f.eval 0) ∧
    (∀ (point : PyEcc.G2.Point) (signatures : Dict Nat Bytes), signatures.keys.Perm indices →
      (∀ index ∈ indices, signatures.get? index =
        some (PyEcc.G2.encode (PyEcc.G2.multiply point (f.eval (scalar index)).val))) →
      thresholdAggregate signatures =
        .ok (PyEcc.G2.encode (PyEcc.G2.multiply point (f.eval 0).val))) ∧
    ∀ (point : PyEcc.G1.Point) (pubshares : Dict Nat Bytes), pubshares.keys.Perm indices →
      (∀ index ∈ indices, pubshares.get? index =
        some (PyEcc.G1.encode (PyEcc.G1.multiply point (f.eval (scalar index)).val))) →
      recoverPubkey pubshares =
        .ok (PyEcc.G1.encode (PyEcc.G1.multiply point (f.eval 0).val)) := by
  have small : f.degree < indices.length :=
    lt_of_lt_of_le degree (by exact_mod_cast enough)
  have nonempty : indices ≠ [] := by
    rintro rfl
    exact absurd enough (Nat.not_le_of_lt positive)
  refine ⟨?_, ?_, ?_⟩
  · have computed : ∀ index, ∃ coefficient, index ∈ indices →
        lagrangeCoefficient index indices = .ok coefficient ∧ coefficient < blsModulus ∧
          (coefficient : ZMod blsModulus) = weight indices.toFinset scalar index := by
      intro index
      by_cases member : index ∈ indices
      · obtain ⟨coefficient, spec⟩ := lagrangeCoefficient_spec valid member
        exact ⟨coefficient, fun _ => spec⟩
      · exact ⟨0, fun absurdly => absurd absurdly member⟩
    choose coefficient spec using computed
    refine ⟨coefficient, fun index member => ⟨(spec index member).1, (spec index member).2.1⟩, ?_, ?_⟩
    · have entries : (indices.mapM fun index => do
          let coefficient ← lagrangeCoefficient index indices
          return (index, coefficient)) =
            .ok (indices.map fun index => (index, coefficient index)) := by
        apply Raising.mapM_eq_ok
        intro index member
        rw [(spec index member).1]
        rfl
      rw [aggregationCoefficients, entries]
      rfl
    · have weighted : ∀ index ∈ indices,
          (coefficient index : ZMod blsModulus) * f.eval (scalar index) =
            weight indices.toFinset scalar index * f.eval (scalar index) := by
        intro index member
        rw [(spec index member).2.2]
      have size : indices.toFinset.card = indices.length :=
        List.toFinset_card_of_nodup valid.distinct
      rw [List.map_congr_left weighted, ← List.sum_toFinset _ valid.distinct]
      exact sum_weight_mul_eval valid.injective (size ▸ small)
  · intro point signatures keys holds
    exact interpolateEncoded_multiples g2 valid small nonempty keys holds
  · intro point pubshares keys holds
    exact interpolateEncoded_multiples g1 valid small nonempty keys holds

/-- The share of a small index under the polynomial `X + 1` is the next multiple of the
generator. -/
theorem encode_share {length : Nat} {codes : List Nat} {index : Nat}
    (small : index + 1 < blsModulus) :
    (logarithmicCurve length codes).encode ((logarithmicCurve length codes).multiply
      (1 : ZMod blsModulus) ((X + C 1 : (ZMod blsModulus)[X]).eval (scalar index)).val) =
        toBigEndian length (pointCode codes (index + 1)) := by
  have value : ((X + C 1 : (ZMod blsModulus)[X]).eval (scalar index)).val = index + 1 := by
    rw [eval_add, eval_X, eval_C, ← Nat.cast_one, ← Nat.cast_add, ZMod.val_cast_of_lt small]
  have multiple : ((index + 1) • (1 : ZMod blsModulus)).val = index + 1 := by
    rw [nsmul_one, ZMod.val_cast_of_lt small]
  rw [value]
  exact congrArg (fun code => toBigEndian length (pointCode codes code)) multiple

/-- The signatures of shares one and two, listed backwards, give the group signature. -/
theorem any_quorum_reconstructs_pair :
    @thresholdAggregate logarithmicPyEcc
        (Dict.ofEntries [(2, toBigEndian 96 (pointCode g2Codes 3)),
          (1, toBigEndian 96 (pointCode g2Codes 2))]) =
      .ok (toBigEndian 96 (pointCode g2Codes 1)) := by
  have valid : ShareIndices [2, 1] := ⟨by decide, by decide, by decide⟩
  have degree : (X + C 1 : (ZMod blsModulus)[X]).degree < (2 : Nat) := by
    rw [degree_X_add_C]
    decide
  let group : AddCommGroup (ZMod blsModulus) := inferInstance
  have aggregates := (@any_quorum_reconstructs logarithmicPyEcc group group lawful_logarithmic_g1
    lawful_logarithmic_g2 2 (by decide) _ degree [2, 1] valid (by decide)).2.1
  have result := aggregates (1 : ZMod blsModulus) (Dict.ofEntries
    [(2, toBigEndian 96 (pointCode g2Codes 3)), (1, toBigEndian 96 (pointCode g2Codes 2))])
    (by decide) ?_
  · have zero : (0 : ZMod blsModulus) = scalar 0 := Nat.cast_zero.symm
    rw [zero] at result
    exact result.trans (congrArg Except.ok (@encode_share 96 g2Codes 0 (by decide +kernel)))
  · intro index member
    rcases List.mem_pair.mp member with rfl | rfl
    · exact congrArg some (@encode_share 96 g2Codes 2 (by decide +kernel)).symm
    · exact congrArg some (@encode_share 96 g2Codes 1 (by decide +kernel)).symm

end DvSpec.SigAgg
