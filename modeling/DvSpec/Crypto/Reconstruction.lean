import DvSpec.Crypto.Bls
import DvSpec.Library.BigEndian
import DvSpec.Library.Raising

/-!
# The interpolation computes Lagrange's formula

Over distinct share indices between one and the group order no inversion fails and
the coefficients are those of Lagrange, so the interpolated point is the weighted
sum of the library's points.
-/

namespace DvSpec.Bls

open DvSpec.Library DvSpec.Library.Interpolation

/-! ## Coefficients -/

/-- The scalar a share index stands for. -/
abbrev scalar (index : Nat) : ZMod blsModulus := index

/-- Distinct share indices between one and the group order. -/
structure ShareIndices (indices : List Nat) : Prop where
  distinct : indices.Nodup
  positive : ∀ index ∈ indices, 1 ≤ index
  below : ∀ index ∈ indices, index < blsModulus

theorem ShareIndices.injective {indices : List Nat} (valid : ShareIndices indices) :
    Set.InjOn scalar indices.toFinset := by
  intro first member second alsoMember equal
  rw [Finset.mem_coe, List.mem_toFinset] at member alsoMember
  exact natCast_injOn (valid.below first member) (valid.below second alsoMember) equal

theorem ShareIndices.nonzero {indices : List Nat} (valid : ShareIndices indices) :
    ∀ index ∈ indices.toFinset, scalar index ≠ 0 := by
  intro index member
  rw [List.mem_toFinset] at member
  exact natCast_ne_zero (valid.positive index member) (valid.below index member)

theorem ShareIndices.perm {indices others : List Nat} (valid : ShareIndices indices)
    (same : others.Perm indices) : ShareIndices others where
  distinct := same.nodup_iff.mpr valid.distinct
  positive index member := valid.positive index (same.mem_iff.mp member)
  below index member := valid.below index (same.mem_iff.mp member)

/-- The integer remainder represents the scalar. -/
theorem cast_emod (value : Int) :
    (((value % blsModulus).toNat : Nat) : ZMod blsModulus) = (value : ZMod blsModulus) := by
  have nonneg : 0 ≤ value % (blsModulus : Int) :=
    Int.emod_nonneg value (Int.natCast_ne_zero.mpr prime_blsModulus.ne_zero)
  rw [← Int.cast_natCast, Int.toNat_of_nonneg nonneg]
  exact ZMod.intCast_mod value blsModulus

/-- An invertible scalar is inverted. -/
theorem modularInverse_spec {value : Nat} (invertible : (value : ZMod blsModulus) ≠ 0) :
    ∃ inverse, modularInverse value blsModulus = .ok inverse ∧
      (inverse : ZMod blsModulus) = (value : ZMod blsModulus)⁻¹ := by
  have coprime : Nat.gcd value blsModulus = 1 := by
    apply Nat.Coprime.symm
    rw [prime_blsModulus.coprime_iff_not_dvd]
    exact fun divides => invertible ((ZMod.natCast_eq_zero_iff _ _).mpr divides)
  refine ⟨_, if_pos coprime, ?_⟩
  have bezout := Nat.gcd_eq_gcd_ab value blsModulus
  rw [coprime] at bezout
  have inverse : (value : ZMod blsModulus) * (Nat.gcdA value blsModulus : ZMod blsModulus) = 1 := by
    have cast := congrArg (Int.cast : Int → ZMod blsModulus) bezout
    simpa using cast.symm
  rw [cast_emod]
  exact eq_inv_of_mul_eq_one_right inverse

/-- One factor of a Lagrange coefficient. -/
def factor (index other : Nat) : ZMod blsModulus :=
  (0 - scalar other) / (scalar index - scalar other)

/-- The loop multiplies the factors of the other indices and keeps the product reduced. -/
theorem coefficientLoop_spec {index coefficient : Nat} (reduced : coefficient < blsModulus)
    (others : List Nat) (apart : ∀ other ∈ others, other ≠ index → scalar other ≠ scalar index) :
    ∃ result, coefficientLoop index coefficient others = .ok result ∧ result < blsModulus ∧
      (result : ZMod blsModulus) =
        coefficient * ((others.filter fun other => other ≠ index).map (factor index)).prod := by
  induction others generalizing coefficient with
  | nil => exact ⟨coefficient, rfl, reduced, by simp⟩
  | cons other rest ih =>
      have restApart : ∀ other ∈ rest, other ≠ index → scalar other ≠ scalar index :=
        fun other member => apart other (List.mem_cons_of_mem _ member)
      by_cases same : other = index
      · obtain ⟨result, computed, small, value⟩ := ih reduced restApart
        refine ⟨result, ?_, small, ?_⟩
        · rw [coefficientLoop, if_pos same, computed]
        · rw [value, List.filter_cons_of_neg (by simp [same])]
      · have denominator : ((((index : Int) - other) % blsModulus).toNat : ZMod blsModulus) =
            scalar index - scalar other := by
          rw [cast_emod]
          push_cast
          rfl
        have invertible : ((((index : Int) - other) % blsModulus).toNat : ZMod blsModulus) ≠ 0 := by
          rw [denominator]
          exact sub_ne_zero.mpr (apart other List.mem_cons_self same).symm
        obtain ⟨inverse, inverted, inverseValue⟩ := modularInverse_spec invertible
        have next : coefficient * (-(other : Int) % blsModulus).toNat * inverse % blsModulus <
            blsModulus := Nat.mod_lt _ prime_blsModulus.pos
        obtain ⟨result, computed, small, value⟩ := ih next restApart
        refine ⟨result, ?_, small, ?_⟩
        · rw [coefficientLoop, if_neg same]
          dsimp only
          rw [inverted]
          exact computed
        · rw [value, List.filter_cons_of_pos (by simpa using same), List.map_cons, List.prod_cons,
            ZMod.natCast_mod]
          push_cast
          rw [cast_emod, inverseValue, denominator, factor, div_eq_mul_inv]
          push_cast
          ring

theorem filter_toFinset (indices : List Nat) (index : Nat) :
    (indices.filter fun other => other ≠ index).toFinset = indices.toFinset.erase index := by
  ext other
  simp [and_comm]

/-- Among valid share indices every coefficient is computed, reduced and Lagrange's. -/
theorem lagrangeCoefficient_spec {index : Nat} {indices : List Nat} (valid : ShareIndices indices)
    (member : index ∈ indices) :
    ∃ coefficient, lagrangeCoefficient index indices = .ok coefficient ∧
      coefficient < blsModulus ∧
      (coefficient : ZMod blsModulus) = weight indices.toFinset scalar index := by
  have apart : ∀ other ∈ indices, other ≠ index → scalar other ≠ scalar index := by
    intro other among different equal
    exact different (natCast_injOn (valid.below other among) (valid.below index member) equal)
  obtain ⟨coefficient, computed, small, value⟩ :=
    coefficientLoop_spec prime_blsModulus.one_lt indices apart
  refine ⟨coefficient, ?_, small, ?_⟩
  · have known : ¬index ∉ indices := not_not_intro member
    have unique : ¬indices.dedup.length ≠ indices.length :=
      not_not_intro (congrArg List.length valid.distinct.dedup)
    have positive : ¬indices.any (fun other => decide (other < 1)) = true := by
      rw [List.any_eq_true]
      rintro ⟨other, among, small⟩
      exact absurd (valid.positive other among) (Nat.not_le_of_lt (of_decide_eq_true small))
    rw [lagrangeCoefficient, if_neg known, if_neg unique, if_neg positive, computed]
  · rw [value, Nat.cast_one, one_mul, weight, ← filter_toFinset,
      List.prod_toFinset _ (valid.distinct.filter _)]
    rfl

/-! ## Points -/

/-- The points form a group of order `r` under the library's operations, and decoding
undoes encoding. -/
structure Curve.Lawful (curve : Curve) [AddCommGroup curve.Point] : Prop where
  add_eq : ∀ one two, curve.add one two = one + two
  multiply_eq : ∀ point n, curve.multiply point n = n • point
  card_eq : Nat.card curve.Point = blsModulus
  decode_encode : ∀ point, curve.decode (curve.encode point) = .ok point

section Points

variable {curve : Curve} [AddCommGroup curve.Point]

theorem Curve.Lawful.encode_injective (lawful : curve.Lawful) {one two : curve.Point}
    (equal : curve.encode one = curve.encode two) : one = two := by
  have decoded := lawful.decode_encode one
  rw [equal, lawful.decode_encode two] at decoded
  exact (Except.ok.inj decoded).symm

/-- A group of order `r` is a vector space over the scalars. -/
abbrev Curve.Lawful.module (lawful : curve.Lawful) : Module (ZMod blsModulus) curve.Point :=
  AddCommGroup.zmodModule fun _ => lawful.card_eq ▸ card_nsmul_eq_zero'

variable [Module (ZMod blsModulus) curve.Point]

theorem weightedPoint_spec (lawful : curve.Lawful) {indices : List Nat}
    (valid : ShareIndices indices) {entry : Nat × curve.Point} (member : entry.1 ∈ indices) :
    weightedPoint curve indices entry =
      .ok (weight indices.toFinset scalar entry.1 • entry.2) := by
  obtain ⟨coefficient, computed, -, value⟩ := lagrangeCoefficient_spec valid member
  rw [weightedPoint, computed, ← value, Nat.cast_smul_eq_nsmul, ← lawful.multiply_eq]
  rfl

theorem addWeighted_spec (lawful : curve.Lawful) {indices : List Nat}
    (valid : ShareIndices indices) (total : curve.Point) {entries : List (Nat × curve.Point)}
    (members : ∀ entry ∈ entries, entry.1 ∈ indices) :
    addWeighted curve indices total entries =
      .ok (total + (entries.map fun entry =>
        weight indices.toFinset scalar entry.1 • entry.2).sum) := by
  induction entries generalizing total with
  | nil => simp [addWeighted]
  | cons entry rest ih =>
      have restMembers : ∀ entry ∈ rest, entry.1 ∈ indices := fun entry member =>
        members entry (List.mem_cons_of_mem _ member)
      rw [addWeighted, weightedPoint_spec lawful valid (members entry List.mem_cons_self)]
      refine (ih _ restMembers).trans ?_
      rw [lawful.add_eq, List.map_cons, List.sum_cons, add_assoc]

/-- The interpolated point is the weighted sum of the points under valid share indices. -/
theorem interpolateAtZero_spec (lawful : curve.Lawful) {points : Dict Nat curve.Point}
    {indices : List Nat} (valid : ShareIndices indices) (keys : points.keys.Perm indices)
    (nonempty : indices ≠ []) {values : Nat → curve.Point}
    (holds : ∀ index ∈ indices, points.get? index = some (values index)) :
    interpolateAtZero curve points = .ok (combine indices.toFinset scalar values) := by
  have sortedPerm : (points.entries.insertionSort fun one two => one.1 ≤ two.1).Perm
      points.entries := List.perm_insertionSort _ _
  unfold interpolateAtZero
  generalize points.entries.insertionSort (fun one two => one.1 ≤ two.1) = sorted at sortedPerm
  have sortedKeys : (sorted.map Prod.fst).Perm indices :=
    (sortedPerm.map Prod.fst).trans keys
  have sortedValid := valid.perm sortedKeys
  have sameNodes : (sorted.map Prod.fst).toFinset = indices.toFinset :=
    List.toFinset_eq_of_perm _ _ sortedKeys
  have members : ∀ entry ∈ sorted, entry.1 ∈ sorted.map Prod.fst := fun entry member =>
    List.mem_map_of_mem member
  have sum : (sorted.map fun entry =>
      weight (sorted.map Prod.fst).toFinset scalar entry.1 • entry.2).sum =
        combine indices.toFinset scalar values := by
    have valued : ∀ entry ∈ sorted, weight (sorted.map Prod.fst).toFinset scalar entry.1 • entry.2 =
        (fun index => weight indices.toFinset scalar index • values index) entry.1 := by
      intro entry member
      have stored := (points.mem_entries_iff entry.1 entry.2).mp (sortedPerm.mem_iff.mp member)
      have among := sortedKeys.mem_iff.mp (members entry member)
      rw [holds entry.1 among, Option.some.injEq] at stored
      rw [sameNodes, ← stored]
    rw [List.map_congr_left valued, combine, ← sameNodes,
      List.sum_toFinset _ sortedValid.distinct, List.map_map, sameNodes]
    rfl
  cases sorted with
  | nil => exact absurd sortedKeys.symm.eq_nil nonempty
  | cons first rest =>
      have restMembers : ∀ entry ∈ rest, entry.1 ∈ (first :: rest).map Prod.fst :=
        fun entry member => members entry (List.mem_cons_of_mem _ member)
      rw [← sum]
      simp only
      rw [weightedPoint_spec lawful sortedValid (members first List.mem_cons_self)]
      refine (addWeighted_spec lawful sortedValid _ restMembers).trans ?_
      simp only [List.map_cons, List.sum_cons]

/-! ## Encoded points -/

/-- Interpolating decodable shares encodes the weighted sum of their points. -/
theorem interpolateEncoded_spec (lawful : curve.Lawful) {encoded : Dict Nat Bytes}
    {indices : List Nat} (valid : ShareIndices indices) (keys : encoded.keys.Perm indices)
    (nonempty : indices ≠ []) {values : Nat → curve.Point}
    (decodes : ∀ index ∈ indices, ∃ data, encoded.get? index = some data ∧
      curve.decode data = .ok (values index)) :
    interpolateEncoded curve encoded =
      .ok (curve.encode (combine indices.toFinset scalar values)) := by
  have decoded : (encoded.entries.mapM fun entry => do
      let point ← curve.decode entry.2
      return (entry.1, point)) =
        .ok (encoded.entries.map fun entry => (entry.1, values entry.1)) := by
    apply Raising.mapM_eq_ok
    intro entry member
    have among : entry.1 ∈ indices := keys.mem_iff.mp (List.mem_map_of_mem member)
    obtain ⟨data, stored, value⟩ := decodes entry.1 among
    rw [(encoded.mem_entries_iff entry.1 entry.2).mp member, Option.some.injEq] at stored
    rw [stored, value]
    rfl
  have entries : (Dict.ofEntries
      (encoded.entries.map fun entry => (entry.1, values entry.1))).entries =
        encoded.entries.map fun entry => (entry.1, values entry.1) := by
    apply Dict.entries_ofEntries
    rw [List.map_map]
    exact encoded.nodup
  have pointKeys : (Dict.ofEntries
      (encoded.entries.map fun entry => (entry.1, values entry.1))).keys.Perm indices := by
    rw [Dict.keys, entries, List.map_map]
    exact keys
  have pointValues : ∀ index ∈ indices, (Dict.ofEntries
      (encoded.entries.map fun entry => (entry.1, values entry.1))).get? index =
        some (values index) := by
    intro index among
    obtain ⟨data, stored, -⟩ := decodes index among
    rw [← Dict.mem_entries_iff, entries]
    exact List.mem_map.mpr ⟨(index, data), (encoded.mem_entries_iff _ _).mpr stored, rfl⟩
  rw [interpolateEncoded, decoded]
  change (interpolateAtZero curve _ >>= fun total => pure (curve.encode total)) = _
  rw [interpolateAtZero_spec lawful valid pointKeys nonempty pointValues]
  rfl

end Points

/-! ## Groups on their discrete logarithms -/

/-- Number the multiples of a generator: the given codes first, then the multiples themselves. -/
def pointCode (codes : List Nat) (multiple : Nat) : Nat :=
  if listed : multiple < codes.length then codes[multiple] else multiple

/-- The multiple a code stands for. -/
def codedMultiple (codes : List Nat) (code : Nat) : Nat :=
  if code ∈ codes then codes.idxOf code else code

theorem codedMultiple_pointCode {codes : List Nat} (distinct : codes.Nodup)
    (large : ∀ code ∈ codes, blsModulus ≤ code) {multiple : Nat} (below : multiple < blsModulus) :
    codedMultiple codes (pointCode codes multiple) = multiple := by
  unfold codedMultiple pointCode
  by_cases listed : multiple < codes.length
  · rw [dif_pos listed, if_pos (List.getElem_mem listed),
      distinct.idxOf_getElem multiple listed]
  · rw [dif_neg listed, if_neg]
    exact fun member => absurd (large multiple member) (Nat.not_le_of_lt below)

/-- A group given by the discrete logarithms of its points, the codes being the encodings
of the first multiples of the generator. -/
@[reducible]
def logarithmicCurve (length : Nat) (codes : List Nat) : Curve where
  Point := ZMod blsModulus
  add one two := one + two
  multiply point n := n • point
  encode point := toBigEndian length (pointCode codes point.val)
  decode data :=
    let point : ZMod blsModulus := codedMultiple codes (fromBigEndian data)
    if toBigEndian length (pointCode codes point.val) = data then .ok point
    else .error (.valueError "invalid point encoding")

theorem lawful_logarithmicCurve {length : Nat} {codes : List Nat} (distinct : codes.Nodup)
    (large : ∀ code ∈ codes, blsModulus ≤ code) (fits : ∀ code ∈ codes, code < 256 ^ length)
    (room : blsModulus ≤ 256 ^ length) : (logarithmicCurve length codes).Lawful where
  add_eq _ _ := rfl
  multiply_eq _ _ := rfl
  card_eq := Nat.card_zmod blsModulus
  decode_encode point := by
    change ZMod blsModulus at point
    have below := ZMod.val_lt point
    have small : pointCode codes point.val < 256 ^ length := by
      unfold pointCode
      by_cases listed : point.val < codes.length
      · rw [dif_pos listed]
        exact fits _ (List.getElem_mem listed)
      · rw [dif_neg listed]
        exact Nat.lt_of_lt_of_le below room
    have decoded : ((codedMultiple codes (fromBigEndian (toBigEndian length
        (pointCode codes point.val))) : Nat) : ZMod blsModulus) = point := by
      rw [fromBigEndian_toBigEndian small, codedMultiple_pointCode distinct large below,
        ZMod.natCast_zmod_val]
    simp only [decoded, if_true]

/-- The compressed encodings of the first four multiples of the generator of `G1`. -/
def g1Codes : List Nat :=
  [0xc00000000000000000000000000000000000000000000000000000000000000000000000000000000000000000000000,
    0x97f1d3a73197d7942695638c4fa9ac0fc3688c4f9774b905a14e3a3f171bac586c55e83ff97a1aeffb3af00adb22c6bb,
    0xa572cbea904d67468808c8eb50a9450c9721db309128012543902d0ac358a62ae28f75bb8f1c7c42c39a8c5529bf0f4e,
    0x89ece308f9d1f0131765212deca99697b112d61f9be9a5f1f3780a51335b3ff981747a0b2ca2179b96d2c0c9024e5224]

/-- The compressed encodings of the first four multiples of the generator of `G2`. -/
def g2Codes : List Nat :=
  [0xc0 * 256 ^ 95,
    0x93e02b6052719f607dacd3a088274f65596bd0d09920b61ab5da61bbdc7f5049334cf11213945d57e5ac7d055d042b7e *
        256 ^ 48 +
      0x024aa2b2f08f0a91260805272dc51051c6e47ad4fa403b02b4510b647ae3d1770bac0326a805bbefd48056c8c121bdb8,
    0xaa4edef9c1ed7f729f520e47730a124fd70662a904ba1074728114d1031e1572c6c886f6b57ec72a6178288c47c33577 *
        256 ^ 48 +
      0x1638533957d540a9d2370f17cc7ed5863bc0b995b8825e0ee1ea1e1e4d00dbae81f14b0bf3611b78c952aacab827a053,
    0x89380275bbc8e5dcea7dc4dd7e0550ff2ac480905396eda55062650f8d251c96eb480673937cc6d9d6a44aaa56ca66dc *
        256 ^ 48 +
      0x122915c824a0857e2ee414a3dccb23ae691ae54329781315a0c75df1c04d6d7a50a030fc866f09d516020ef82324afae]

/-- The two groups by their discrete logarithms. -/
@[reducible]
def logarithmicPyEcc : PyEcc where
  G1 := logarithmicCurve 48 g1Codes
  G2 := logarithmicCurve 96 g2Codes

theorem lawful_logarithmic_g1 : (logarithmicCurve 48 g1Codes).Lawful :=
  lawful_logarithmicCurve (by decide +kernel) (by decide +kernel) (by decide +kernel)
    (by decide +kernel)

theorem lawful_logarithmic_g2 : (logarithmicCurve 96 g2Codes).Lawful :=
  lawful_logarithmicCurve (by decide +kernel) (by decide +kernel) (by decide +kernel)
    (by decide +kernel)

end DvSpec.Bls
