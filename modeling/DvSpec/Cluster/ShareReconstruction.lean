import DvSpec.Cluster.Verification
import DvSpec.Crypto.Reconstruction
import Mathlib.Data.List.GetD

/-!
# Share verification is exact

A lock passes the share verification iff every validator's public shares are the
values of one polynomial over the group, of degree below the threshold, whose value
at zero is the group public key.
-/

namespace DvSpec.Cluster

open DvSpec.Library DvSpec.Library.Interpolation DvSpec.Bls

/-- The value at a natural number of a polynomial with coefficients in a group. -/
def groupValue {G : Type} [AddCommGroup G] {size : Nat} (coefficients : Fin size → G)
    (index : Nat) : G :=
  ∑ power : Fin size, index ^ (power : Nat) • coefficients power

theorem groupValue_eq {G : Type} [AddCommGroup G] [Module (ZMod blsModulus) G] {size : Nat}
    (coefficients : Fin size → G) (index : Nat) :
    groupValue coefficients index = valueAt coefficients (scalar index) := by
  apply Finset.sum_congr rfl
  intro power _
  rw [← Nat.cast_pow, Nat.cast_smul_eq_nsmul]

theorem groupValue_zero {G : Type} [AddCommGroup G] [Module (ZMod blsModulus) G] {size : Nat}
    (coefficients : Fin size → G) :
    groupValue coefficients 0 = valueAt coefficients (0 : ZMod blsModulus) := by
  rw [groupValue_eq, scalar, Nat.cast_zero]

theorem groupValue_zeros {G : Type} [AddCommGroup G] (size index : Nat) :
    groupValue (fun _ : Fin size => (0 : G)) index = 0 :=
  Finset.sum_eq_zero fun _ _ => smul_zero _

/-! ## Shares at chosen positions -/

/-- The share indices of the given positions. -/
def indicesOf (positions : List Nat) : List Nat := positions.map (· + 1)

theorem mem_indicesOf {positions : List Nat} {index : Nat} :
    index ∈ (indicesOf positions).toFinset ↔ ∃ position ∈ positions, position + 1 = index := by
  rw [List.mem_toFinset, indicesOf, List.mem_map]

theorem entries_sharesAt (shares : List Bytes) {positions : List Nat}
    (distinct : positions.Nodup) :
    (sharesAt shares positions).entries = positions.map (shareEntry shares) := by
  apply Dict.entries_ofEntries
  rw [List.map_map]
  exact distinct.map fun one two equal => Nat.succ.inj equal

theorem keys_sharesAt (shares : List Bytes) {positions : List Nat} (distinct : positions.Nodup) :
    (sharesAt shares positions).keys = indicesOf positions := by
  rw [Dict.keys, entries_sharesAt shares distinct, List.map_map]
  rfl

theorem substitutedShares_eq (shares : List Bytes) (threshold position : Nat) :
    substitutedShares shares threshold position =
      sharesAt shares (List.range (threshold - 1) ++ [position]) := by
  rw [sharesAt, List.map_append, List.map_singleton, Dict.ofEntries_concat]
  rfl

theorem shareIndices_indicesOf {positions : List Nat} {count : Nat} (distinct : positions.Nodup)
    (few : count < blsModulus) (inRange : ∀ position ∈ positions, position < count) :
    ShareIndices (indicesOf positions) where
  distinct := distinct.map fun one two equal => Nat.succ.inj equal
  positive := by
    intro index member
    obtain ⟨position, -, rfl⟩ := List.mem_map.mp member
    exact Nat.le_add_left 1 position
  below := by
    intro index member
    obtain ⟨position, among, rfl⟩ := List.mem_map.mp member
    exact Nat.lt_of_le_of_lt (inRange position among) few

section Substitution

variable {threshold : Nat}

/-- The positions of the quorum in which a further share replaces the last one. -/
def substitutedPositions (threshold position : Nat) : List Nat :=
  List.range (threshold - 1) ++ [position]

theorem distinct_substitutedPositions {position : Nat} (further : threshold ≤ position) :
    (substitutedPositions threshold position).Nodup := by
  rw [substitutedPositions, List.nodup_append]
  refine ⟨List.nodup_range, List.nodup_singleton _, ?_⟩
  intro one low two last equal
  rw [List.mem_singleton] at last
  rw [List.mem_range] at low
  omega

theorem lt_of_mem_substitutedPositions {position count : Nat} (further : threshold ≤ position)
    (below : position < count) :
    ∀ other ∈ substitutedPositions threshold position, other < count := by
  intro other member
  rcases List.mem_append.mp member with low | last
  · have := List.mem_range.mp low
    omega
  · rw [List.mem_singleton.mp last]
    exact below

/-- Substituting a share swaps the last share index of the quorum for the new one. -/
theorem indicesOf_substitutedPositions {position : Nat} (some_share : 1 ≤ threshold) :
    (indicesOf (substitutedPositions threshold position)).toFinset =
      insert (position + 1) ((indicesOf (List.range threshold)).toFinset.erase threshold) := by
  ext index
  simp only [mem_indicesOf, substitutedPositions, List.mem_append, List.mem_range,
    List.mem_singleton, Finset.mem_insert, Finset.mem_erase]
  constructor
  · rintro ⟨other, low | rfl, rfl⟩
    · exact Or.inr ⟨by omega, other, by omega, rfl⟩
    · exact Or.inl rfl
  · rintro (rfl | ⟨different, other, low, rfl⟩)
    · exact ⟨position, Or.inr rfl, rfl⟩
    · exact ⟨other, Or.inl (by omega), rfl⟩

end Substitution

section Recovery

variable [PyEcc] [AddCommGroup PyEcc.G1.Point]

omit [AddCommGroup PyEcc.G1.Point] in
/-- A key is recovered from decodable shares only. -/
theorem decodes_of_recoverPubkey {shares : List Bytes} {positions : List Nat} {pubkey : Bytes}
    (distinct : positions.Nodup)
    (recovered : recoverPubkey (sharesAt shares positions) = .ok pubkey) :
    ∀ position ∈ positions, ∃ point, PyEcc.G1.decode (shares.getD position []) = .ok point := by
  intro position member
  rw [recoverPubkey, interpolateEncoded, entries_sharesAt shares distinct] at recovered
  obtain ⟨points, decoded, -⟩ := Raising.bind_eq_ok_iff.mp recovered
  obtain ⟨entry, returned⟩ := Raising.forall_of_mapM_eq_ok decoded (shareEntry shares position)
    (List.mem_map_of_mem member)
  obtain ⟨point, decodes, -⟩ := Raising.bind_eq_ok_iff.mp returned
  exact ⟨point, decodes⟩

/-- Decodable shares at distinct positions recover the weighted sum of their points. -/
theorem recoverPubkey_sharesAt [Module (ZMod blsModulus) PyEcc.G1.Point] (g1 : PyEcc.G1.Lawful)
    {shares : List Bytes} (few : shares.length < blsModulus) {positions : List Nat}
    (distinct : positions.Nodup) (inRange : ∀ position ∈ positions, position < shares.length)
    (nonempty : positions ≠ []) {values : Nat → PyEcc.G1.Point}
    (decodes : ∀ position < shares.length,
      PyEcc.G1.decode (shares.getD position []) = .ok (values (position + 1))) :
    recoverPubkey (sharesAt shares positions) =
      .ok (PyEcc.G1.encode (combine (indicesOf positions).toFinset scalar values)) := by
  apply interpolateEncoded_spec g1 (shareIndices_indicesOf distinct few inRange)
  · rw [keys_sharesAt shares distinct]
  · intro empty
    exact nonempty (List.map_eq_nil_iff.mp empty)
  · intro index member
    obtain ⟨position, among, rfl⟩ := List.mem_map.mp member
    refine ⟨shares.getD position [], ?_, decodes position (inRange position among)⟩
    rw [← Dict.mem_entries_iff, entries_sharesAt shares distinct]
    exact List.mem_map_of_mem (f := shareEntry shares) among

end Recovery

/-! ## One validator -/

section Validator

variable [PyEcc] {threshold index : Nat} {validator : DistValidator}

/-- The checks made for one validator. -/
theorem verifyValidatorShares_eq_ok_iff :
    verifyValidatorShares threshold index validator = .ok () ↔
      (1 ≤ threshold ∧ threshold ≤ validator.pubshares.length) ∧
      recoverPubkey (sharesAt validator.pubshares (List.range threshold)) = .ok validator.pubkey ∧
      ∀ position, threshold ≤ position → position < validator.pubshares.length →
        recoverPubkey (sharesAt validator.pubshares (substitutedPositions threshold position)) =
          .ok validator.pubkey := by
  unfold verifyValidatorShares
  by_cases outOfRange : threshold < 1 ∨ validator.pubshares.length < threshold
  · rw [if_pos outOfRange]
    refine ⟨fun returns => ?_, fun checks => ?_⟩
    · cases returns
    · omega
  · have range : 1 ≤ threshold ∧ threshold ≤ validator.pubshares.length := by omega
    rw [if_neg outOfRange, Raising.require_eq_ok_iff, and_iff_right range]
    refine and_congr_right fun _ => Raising.forM_eq_ok_iff.trans ?_
    have member_iff : ∀ position,
        position ∈ List.range' threshold (validator.pubshares.length - threshold) ↔
          threshold ≤ position ∧ position < validator.pubshares.length := by
      intro position
      rw [List.mem_range'_1]
      omega
    simp only [member_iff, and_imp, Raising.require_eq_ok_iff, and_true, substitutedShares_eq]
    rfl

/-- The shares are the values of one polynomial of degree below the threshold through the
public key. -/
structure OnPolynomial [AddCommGroup PyEcc.G1.Point] (threshold : Nat)
    (validator : DistValidator) : Prop where
  one_le : 1 ≤ threshold
  le_length : threshold ≤ validator.pubshares.length
  polynomial : ∃ coefficients : Fin threshold → PyEcc.G1.Point,
    PyEcc.G1.encode (groupValue coefficients 0) = validator.pubkey ∧
    ∀ position < validator.pubshares.length,
      PyEcc.G1.decode (validator.pubshares.getD position []) =
        .ok (groupValue coefficients (position + 1))

variable [AddCommGroup PyEcc.G1.Point]

/-- The points of shares that decode combine to the public key in the quorum and in all its
substitutions iff they lie on a polynomial through it. -/
theorem recovers_iff_polynomial [Module (ZMod blsModulus) PyEcc.G1.Point]
    {count : Nat} (few : count < blsModulus) (some_share : 1 ≤ threshold)
    (enough : threshold ≤ count) (values : Nat → PyEcc.G1.Point) (secret : PyEcc.G1.Point) :
    (combine (indicesOf (List.range threshold)).toFinset scalar values = secret ∧
        ∀ position, threshold ≤ position → position < count →
          combine (indicesOf (substitutedPositions threshold position)).toFinset scalar values =
            secret) ↔
      ∃ coefficients : Fin threshold → PyEcc.G1.Point, groupValue coefficients 0 = secret ∧
        ∀ position < count, groupValue coefficients (position + 1) = values (position + 1) := by
  have all_valid : ShareIndices (indicesOf (List.range count)) :=
    shareIndices_indicesOf List.nodup_range few fun position => List.mem_range.mp
  have included : (indicesOf (List.range threshold)).toFinset ⊆
      (indicesOf (List.range count)).toFinset := by
    intro index member
    obtain ⟨position, low, same⟩ := mem_indicesOf.mp member
    have below := List.mem_range.mp low
    exact mem_indicesOf.mpr ⟨position, List.mem_range.mpr (by omega), same⟩
  have card : (indicesOf (List.range threshold)).toFinset.card = threshold := by
    have distinct : (indicesOf (List.range threshold)).Nodup :=
      List.nodup_range.map fun one two equal => Nat.succ.inj equal
    rw [List.toFinset_card_of_nodup distinct, indicesOf, List.length_map, List.length_range]
  have last : threshold ∈ (indicesOf (List.range threshold)).toFinset :=
    mem_indicesOf.mpr ⟨threshold - 1, List.mem_range.mpr (by omega), by omega⟩
  have further : ∀ index, index ∈ (indicesOf (List.range count)).toFinset \
      (indicesOf (List.range threshold)).toFinset ↔
        ∃ position, threshold ≤ position ∧ position < count ∧ position + 1 = index := by
    intro index
    simp only [Finset.mem_sdiff, mem_indicesOf, List.mem_range, not_exists, not_and]
    constructor
    · rintro ⟨⟨position, below, rfl⟩, outside⟩
      exact ⟨position, Nat.le_of_not_lt fun low => outside position low rfl, below, rfl⟩
    · rintro ⟨position, beyond, below, rfl⟩
      exact ⟨⟨position, below, rfl⟩, fun other low same => by omega⟩
  refine Iff.trans (and_congr_right fun _ => ?_)
    ((combine_substituted_iff all_valid.injective all_valid.nonzero included card last).trans ?_)
  · simp only [further, indicesOf_substitutedPositions some_share]
    constructor
    · rintro substituted _ ⟨position, beyond, below, rfl⟩
      exact substituted position beyond below
    · intro substituted position beyond below
      exact substituted (position + 1) ⟨position, beyond, below, rfl⟩
  · simp only [groupValue_eq, mem_indicesOf, List.mem_range, scalar, Nat.cast_zero]
    constructor
    · rintro ⟨coefficients, atZero, through⟩
      exact ⟨coefficients, atZero, fun position below => through _ ⟨position, below, rfl⟩⟩
    · rintro ⟨coefficients, atZero, through⟩
      refine ⟨coefficients, atZero, ?_⟩
      rintro _ ⟨position, below, rfl⟩
      exact through position below

/-- A validator passes iff its shares lie on a polynomial through its public key. -/
theorem verifyValidatorShares_exact (g1 : PyEcc.G1.Lawful)
    (few : validator.pubshares.length < blsModulus) :
    verifyValidatorShares threshold index validator = .ok () ↔
      OnPolynomial threshold validator := by
  let scalars := g1.module
  rw [verifyValidatorShares_eq_ok_iff]
  constructor
  · rintro ⟨⟨some_share, enough⟩, first, others⟩
    have decodable : ∀ position, ∃ point, position < validator.pubshares.length →
        PyEcc.G1.decode (validator.pubshares.getD position []) = .ok point := by
      intro position
      by_cases low : position < threshold
      · obtain ⟨point, decodes⟩ := decodes_of_recoverPubkey List.nodup_range first position
          (List.mem_range.mpr low)
        exact ⟨point, fun _ => decodes⟩
      · by_cases below : position < validator.pubshares.length
        · have further := Nat.le_of_not_lt low
          obtain ⟨point, decodes⟩ := decodes_of_recoverPubkey
            (distinct_substitutedPositions further) (others position further below) position
            (List.mem_append_right _ (List.mem_singleton_self _))
          exact ⟨point, fun _ => decodes⟩
        · exact ⟨0, fun inRange => absurd inRange below⟩
    choose points decodes using decodable
    let values : Nat → PyEcc.G1.Point := fun index => points (index - 1)
    have valued : ∀ position < validator.pubshares.length,
        PyEcc.G1.decode (validator.pubshares.getD position []) = .ok (values (position + 1)) :=
      decodes
    have recovers : ∀ positions : List Nat, positions.Nodup → positions ≠ [] →
        (∀ position ∈ positions, position < validator.pubshares.length) →
          recoverPubkey (sharesAt validator.pubshares positions) = .ok validator.pubkey →
            PyEcc.G1.encode (combine (indicesOf positions).toFinset scalar values) =
              validator.pubkey := by
      intro positions distinct nonempty inRange recovered
      rw [recoverPubkey_sharesAt g1 few distinct inRange nonempty valued] at recovered
      exact Except.ok.inj recovered
    have secret := recovers (List.range threshold) List.nodup_range
      (fun empty => absurd (List.range_eq_nil.mp empty) (by omega))
      (fun position low => Nat.lt_of_lt_of_le (List.mem_range.mp low) enough) first
    have same : ∀ position, threshold ≤ position → position < validator.pubshares.length →
        combine (indicesOf (substitutedPositions threshold position)).toFinset scalar values =
          combine (indicesOf (List.range threshold)).toFinset scalar values := by
      intro position further below
      apply g1.encode_injective
      rw [secret]
      exact recovers _ (distinct_substitutedPositions further)
        (List.append_ne_nil_of_right_ne_nil _ (List.cons_ne_nil _ _))
        (lt_of_mem_substitutedPositions further below) (others position further below)
    obtain ⟨coefficients, atZero, through⟩ :=
      (recovers_iff_polynomial few some_share enough values _).mp ⟨rfl, same⟩
    refine ⟨some_share, enough, coefficients, by rw [atZero, secret], fun position below => ?_⟩
    rw [valued position below, through position below]
  · rintro ⟨some_share, enough, coefficients, atZero, through⟩
    obtain ⟨first, others⟩ := (recovers_iff_polynomial few some_share enough
      (groupValue coefficients) (groupValue coefficients 0)).mpr
        ⟨coefficients, rfl, fun _ _ => rfl⟩
    refine ⟨⟨some_share, enough⟩, ?_, fun position further below => ?_⟩
    · rw [recoverPubkey_sharesAt g1 few List.nodup_range
        (fun position low => Nat.lt_of_lt_of_le (List.mem_range.mp low) enough)
        (fun empty => absurd (List.range_eq_nil.mp empty) (by omega)) through, first, atZero]
    · rw [recoverPubkey_sharesAt g1 few (distinct_substitutedPositions further)
        (lt_of_mem_substitutedPositions further below)
        (List.append_ne_nil_of_right_ne_nil _ (List.cons_ne_nil _ _)) through,
        others position further below, atZero]

/-- Shares on a polynomial give its public key at any threshold many positions. -/
theorem OnPolynomial.recovers (g1 : PyEcc.G1.Lawful)
    (few : validator.pubshares.length < blsModulus) (on : OnPolynomial threshold validator)
    {positions : List Nat} (distinct : positions.Nodup)
    (inRange : ∀ position ∈ positions, position < validator.pubshares.length)
    (quorum : threshold ≤ positions.length) :
    recoverPubkey (sharesAt validator.pubshares positions) = .ok validator.pubkey := by
  let scalars := g1.module
  obtain ⟨some_share, -, coefficients, atZero, through⟩ := on
  have valid := shareIndices_indicesOf distinct few inRange
  have nonempty : positions ≠ [] := by
    rintro rfl
    exact absurd quorum (Nat.not_le_of_lt some_share)
  have size : threshold ≤ (indicesOf positions).toFinset.card := by
    rwa [List.toFinset_card_of_nodup valid.distinct, indicesOf, List.length_map]
  have combined := combine_valueAt valid.injective size coefficients
  rw [recoverPubkey_sharesAt g1 few distinct inRange nonempty through, ← atZero,
    groupValue_zero, ← combined]
  exact congrArg (fun point => Except.ok (PyEcc.G1.encode point))
    (combine_congr fun index _ => groupValue_eq coefficients index)

end Validator

/-! ## Whole locks -/

/-- A lock whose validators have fewer shares than the group order passes iff the shares of
every validator lie on a polynomial through its public key, and then any threshold many
shares recover that key. -/
theorem verifySharesReconstruct_exact [PyEcc] [AddCommGroup PyEcc.G1.Point]
    (g1 : PyEcc.G1.Lawful) (lock : Lock)
    (few : ∀ validator ∈ lock.validators, validator.pubshares.length < blsModulus) :
    (verifySharesReconstruct lock = .ok () ↔
      ∀ validator ∈ lock.validators, OnPolynomial lock.threshold validator) ∧
    (verifySharesReconstruct lock = .ok () →
      ∀ validator ∈ lock.validators, ∀ positions : List Nat, positions.Nodup →
        (∀ position ∈ positions, position < validator.pubshares.length) →
        lock.threshold ≤ positions.length →
          recoverPubkey (sharesAt validator.pubshares positions) = .ok validator.pubkey) := by
  have exactly : verifySharesReconstruct lock = .ok () ↔
      ∀ validator ∈ lock.validators, OnPolynomial lock.threshold validator := by
    rw [verifySharesReconstruct, Raising.forM_eq_ok_iff]
    constructor
    · intro passes validator member
      rw [← List.zipIdx_map_fst 0 lock.validators] at member
      obtain ⟨entry, among, rfl⟩ := List.mem_map.mp member
      exact (verifyValidatorShares_exact g1
        (few entry.1 (List.fst_mem_of_mem_zipIdx among))).mp (passes entry among)
    · intro on entry among
      have member := List.fst_mem_of_mem_zipIdx among
      exact (verifyValidatorShares_exact g1 (few entry.1 member)).mpr (on entry.1 member)
  refine ⟨exactly, fun passes validator member positions distinct inRange quorum => ?_⟩
  exact (exactly.mp passes validator member).recovers g1 (few validator member) distinct inRange
    quorum

theorem two_lt_goInt : 2 < 2 ^ 63 := by decide

/-- A lock without operators, with threshold two and one validator. -/
def soloLock (pubkey : Bytes) (pubshares : List Bytes) : Lock where
  definition := {
    uuid := ""
    name := ""
    version := versionV1x10
    timestamp := ""
    numValidators := ⟨0, Nat.two_pow_pos 63⟩
    threshold := ⟨2, two_lt_goInt⟩
    dkgAlgorithm := ""
    forkVersion := []
    operators := []
    creator := ⟨"", []⟩
    validatorAddresses := []
    depositAmounts := []
    consensusProtocol := ""
    targetGasLimit := ⟨0, Nat.two_pow_pos 63⟩
    compounding := false
    configHash := []
    definitionHash := []
    version_supported := List.mem_singleton_self _
    numValidators_eq := rfl }
  validators := [{
    pubkey := pubkey
    pubshares := pubshares
    partialDepositData := []
    builderRegistration :=
      ⟨⟨[], ⟨0, Nat.two_pow_pos 63⟩, ⟨0, Nat.two_pow_pos 63⟩, []⟩, []⟩ }]
  lockHash := []
  signatureAggregate := []
  nodeSignatures := []

theorem groupValue_ones (index : Nat) :
    groupValue (fun _ : Fin 2 => (1 : ZMod blsModulus)) index =
      ((1 + index : Nat) : ZMod blsModulus) := by
  rw [groupValue, Fin.sum_univ_two]
  simp

/-- The code of a small multiple of the generator of `G1` decodes to that multiple. -/
theorem decode_multiple : ∀ multiple : Nat, multiple < 4 →
    (logarithmicCurve 48 g1Codes).decode (toBigEndian 48 (pointCode g1Codes multiple)) =
      .ok (multiple : ZMod blsModulus) := by
  decide +kernel

theorem encode_multiple : ∀ multiple : Nat, multiple < 4 →
    (logarithmicCurve 48 g1Codes).encode (multiple : ZMod blsModulus) =
      toBigEndian 48 (pointCode g1Codes multiple) := by
  decide +kernel

/-- Two shares of the polynomial `X + 1` pass for the generator as public key. -/
theorem verifySharesReconstruct_pair :
    @verifySharesReconstruct logarithmicPyEcc
      (soloLock (toBigEndian 48 (pointCode g1Codes 1))
        [toBigEndian 48 (pointCode g1Codes 2), toBigEndian 48 (pointCode g1Codes 3)]) =
      .ok () := by
  let library : PyEcc := logarithmicPyEcc
  let group : AddCommGroup (ZMod blsModulus) := inferInstance
  refine (@verifySharesReconstruct_exact logarithmicPyEcc group lawful_logarithmic_g1 _ ?_).1.mpr ?_
  · intro validator member
    rw [List.mem_singleton.mp member]
    decide +kernel
  · intro validator member
    rw [List.mem_singleton.mp member]
    refine ⟨by decide, by decide, fun _ => (1 : ZMod blsModulus), ?_, fun position below => ?_⟩
    · exact (congrArg _ (groupValue_ones 0)).trans (encode_multiple 1 (by decide))
    · have first_or_second : position = 0 ∨ position = 1 := by
        change position < 2 at below
        omega
      rcases first_or_second with rfl | rfl
      · exact (decode_multiple 2 (by decide)).trans (congrArg _ (groupValue_ones 1).symm)
      · exact (decode_multiple 3 (by decide)).trans (congrArg _ (groupValue_ones 2).symm)

/-- The encoding of the neutral element. -/
def neutralShare : Bytes := toBigEndian 48 (pointCode g1Codes 0)

theorem onPolynomial_neutral {count : Nat} (two : 2 ≤ count) {validator : DistValidator}
    (member : validator ∈ (soloLock neutralShare (List.replicate count neutralShare)).validators) :
    @OnPolynomial logarithmicPyEcc (inferInstance : AddCommGroup (ZMod blsModulus)) 2
      validator := by
  let library : PyEcc := logarithmicPyEcc
  let group : AddCommGroup (ZMod blsModulus) := inferInstance
  rw [List.mem_singleton.mp member]
  have length : (List.replicate count neutralShare).length = count := List.length_replicate
  have zero : ((0 : Nat) : ZMod blsModulus) = 0 := Nat.cast_zero
  refine ⟨by decide, length.symm ▸ two, fun _ => (0 : ZMod blsModulus), ?_, fun position below => ?_⟩
  · rw [groupValue_zeros, ← zero]
    exact encode_multiple 0 (by decide)
  · rw [groupValue_zeros, ← zero]
    have share : (List.replicate count neutralShare).getD position [] = neutralShare :=
      List.getD_replicate _ (length ▸ below)
    exact (congrArg _ share).trans (decode_multiple 0 (by decide))

/-- Shares one and `r + 1` have the same scalar, so no coefficient exists. -/
theorem recoverPubkey_congruent : @recoverPubkey logarithmicPyEcc
    (Dict.ofEntries [(1, neutralShare), (blsModulus + 1, neutralShare)]) =
      .error (.valueError "base is not invertible for the given modulus") := by
  decide +kernel

theorem verifySharesReconstruct_neutral {count : Nat} (long : blsModulus < count) :
    @verifySharesReconstruct logarithmicPyEcc
      (soloLock neutralShare (List.replicate count neutralShare)) ≠ .ok () := by
  let library : PyEcc := logarithmicPyEcc
  intro passes
  have checked := Raising.forM_eq_ok_iff.mp passes _ List.mem_cons_self
  have length : (List.replicate count neutralShare).length = count := List.length_replicate
  have two : 2 ≤ blsModulus := prime_blsModulus.two_le
  have substituted := (verifyValidatorShares_eq_ok_iff.mp checked).2.2 blsModulus two
    (length.symm ▸ long)
  have shares : sharesAt (List.replicate count neutralShare) (substitutedPositions 2 blsModulus) =
      Dict.ofEntries [(1, neutralShare), (blsModulus + 1, neutralShare)] := by
    have first : shareEntry (List.replicate count neutralShare) 0 = (1, neutralShare) :=
      Prod.ext rfl (List.getD_replicate _ (by omega))
    have last : shareEntry (List.replicate count neutralShare) blsModulus =
        (blsModulus + 1, neutralShare) := Prod.ext rfl (List.getD_replicate _ long)
    rw [← first, ← last]
    rfl
  have recovered := (congrArg recoverPubkey shares).symm.trans substituted
  rw [recoverPubkey_congruent] at recovered
  cases recovered

/-- The bound is on the shares, not on the operators: a list of shares longer than the group
order, which no machine holds, would be rejected although all its shares lie on the zero
polynomial, since the share index one past the order is congruent to the first. -/
theorem long_share_list_rejected : ¬∀ lock : Lock, lock.definition.numOperators < blsModulus →
    (@verifySharesReconstruct logarithmicPyEcc lock = .ok () ↔
      ∀ validator ∈ lock.validators, @OnPolynomial logarithmicPyEcc
        (inferInstance : AddCommGroup (ZMod blsModulus)) lock.threshold validator) := by
  intro exactly
  have two : 2 ≤ blsModulus + 1 := Nat.le_succ_of_le prime_blsModulus.two_le
  have passes := (exactly (soloLock neutralShare (List.replicate (blsModulus + 1) neutralShare))
    prime_blsModulus.pos).mpr fun validator member => onPolynomial_neutral two member
  exact verifySharesReconstruct_neutral (Nat.lt_succ_self _) passes

end DvSpec.Cluster
