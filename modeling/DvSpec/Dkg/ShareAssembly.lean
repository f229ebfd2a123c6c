import DvSpec.Dkg.Frost
import DvSpec.Library.Arrival
import DvSpec.Library.Raising

/-!
# Assembled validator shares

A verified bundle only holds casts of its sender, so what is recorded under a share
index comes from the bundle of that index, in whatever order the casts of all bundles
arrive.  With one cast per validator in every bundle the result is complete.
-/

namespace DvSpec.Dkg

open DvSpec.Library DvSpec.Library.Arrival DvSpec.Library.Raising

/-! ## What is collected -/

/-- The casts for one validator. -/
def castsFor (casts : List FrostRound2Cast) (valIdx : Nat) : List FrostRound2Cast :=
  casts.filter fun cast => cast.key.valIdx = valIdx

/-- The public shares of one validator. -/
def sharesFor (casts : List FrostRound2Cast) (valIdx : Nat) : Dict Nat Bytes :=
  (castsFor casts valIdx).foldl (fun shares cast => shares.set cast.key.sourceId cast.vkShare)
    Dict.empty

theorem mem_castsFor {casts : List FrostRound2Cast} {valIdx : Nat} {cast : FrostRound2Cast} :
    cast ∈ castsFor casts valIdx ↔ cast ∈ casts ∧ cast.key.valIdx = valIdx := by
  rw [castsFor, List.mem_filter, decide_eq_true_iff]

theorem get?_collectShares (casts : List FrostRound2Cast) (valIdx : Nat) :
    ((collectShares casts).get? valIdx).getD Dict.empty = sharesFor casts valIdx := by
  have collected := Dict.get?_foldl_update (fun cast : FrostRound2Cast => cast.key.valIdx)
    (Dict.empty : Dict Nat Bytes) (fun shares cast => shares.set cast.key.sourceId cast.vkShare)
    casts valIdx
  rw [collectShares]
  refine (congrArg (Option.getD · Dict.empty) collected).trans ?_
  rw [sharesFor, castsFor]
  split
  · rename_i none
    rw [none]
    rfl
  · rfl

/-- The validators with casts, in ascending order. -/
def indices (casts : List FrostRound2Cast) : List Nat :=
  (collectShares casts).keys.insertionSort (· ≤ ·)

theorem keys_collectShares (casts : List FrostRound2Cast) :
    (collectShares casts).keys = arrivals (casts.map fun cast => cast.key.valIdx) :=
  keys_foldl_set (fun cast : FrostRound2Cast => cast.key.valIdx) _ casts

theorem mem_indices {casts : List FrostRound2Cast} {valIdx : Nat} :
    valIdx ∈ indices casts ↔ ∃ cast ∈ casts, cast.key.valIdx = valIdx := by
  rw [indices, List.mem_insertionSort, keys_collectShares, mem_arrivals, List.mem_map]

theorem pairwise_indices (casts : List FrostRound2Cast) : (indices casts).Pairwise (· < ·) := by
  have distinct : (indices casts).Nodup :=
    (List.perm_insertionSort _ _).nodup_iff.mpr (collectShares casts).keys_nodup
  have sorted : (indices casts).Pairwise (· ≤ ·) := List.pairwise_insertionSort _ _
  exact sorted.imp₂ (fun _ _ below apart => Nat.lt_of_le_of_ne below apart) distinct

/-- Local key material for a validator. -/
structure HasMaterial (validatorPubkeys secretShares : Dict Nat Bytes) (valIdx : Nat) : Prop where
  pubkey : validatorPubkeys.contains valIdx = true
  secret : secretShares.contains valIdx = true

/-- The artifact of one validator. -/
def shareOf (casts : List FrostRound2Cast) (validatorPubkeys secretShares : Dict Nat Bytes)
    (valIdx : Nat) : ValidatorShare where
  validatorPubkey := (validatorPubkeys.get? valIdx).getD []
  secretShare := (secretShares.get? valIdx).getD []
  publicShares := { shares := sharesFor casts valIdx }

variable {validatorPubkeys secretShares : Dict Nat Bytes}

theorem buildShare_eq_ok {casts : List FrostRound2Cast} {valIdx : Nat}
    (material : HasMaterial validatorPubkeys secretShares valIdx) :
    buildShare (collectShares casts) validatorPubkeys secretShares valIdx =
      .ok (shareOf casts validatorPubkeys secretShares valIdx) := by
  obtain ⟨pubkey, hasPubkey⟩ := Option.isSome_iff_exists.mp material.pubkey
  obtain ⟨secret, hasSecret⟩ := Option.isSome_iff_exists.mp material.secret
  simp only [buildShare, hasPubkey, hasSecret, get?_collectShares, shareOf, Option.getD_some]

theorem hasMaterial_of_buildShare {pubShares : Dict Nat (Dict Nat Bytes)} {valIdx : Nat}
    {share : ValidatorShare}
    (built : buildShare pubShares validatorPubkeys secretShares valIdx = .ok share) :
    HasMaterial validatorPubkeys secretShares valIdx := by
  unfold buildShare at built
  split at built
  · rename_i hasPubkey hasSecret
    exact ⟨Option.isSome_iff_exists.mpr ⟨_, hasPubkey⟩, Option.isSome_iff_exists.mpr ⟨_, hasSecret⟩⟩
  · cases built

/-- The assembly succeeds iff there is key material for every validator with casts. -/
theorem assembleValidatorShares_eq_ok_iff {casts : List FrostRound2Cast}
    {shares : List ValidatorShare} :
    assembleValidatorShares casts validatorPubkeys secretShares = .ok shares ↔
      (∀ valIdx ∈ indices casts, HasMaterial validatorPubkeys secretShares valIdx) ∧
        shares = (indices casts).map (shareOf casts validatorPubkeys secretShares) := by
  have whole : (∀ valIdx ∈ indices casts, HasMaterial validatorPubkeys secretShares valIdx) →
      assembleValidatorShares casts validatorPubkeys secretShares =
        .ok ((indices casts).map (shareOf casts validatorPubkeys secretShares)) :=
    fun material => mapM_eq_ok fun valIdx member => buildShare_eq_ok (material valIdx member)
  constructor
  · intro assembled
    have material : ∀ valIdx ∈ indices casts, HasMaterial validatorPubkeys secretShares valIdx := by
      intro valIdx member
      obtain ⟨share, built⟩ := forall_of_mapM_eq_ok assembled valIdx member
      exact hasMaterial_of_buildShare built
    exact ⟨material, Except.ok.inj (assembled.symm.trans (whole material))⟩
  · rintro ⟨material, rfl⟩
    exact whole material

/-! ## Bundles of the senders -/

theorem verifyRound2Casts_eq_ok_iff {msg : FrostRound2Casts} {senderShareIdx validators : Nat} :
    verifyRound2Casts msg senderShareIdx validators = .ok () ↔
      ∀ cast ∈ msg.casts, cast.key.sourceId = senderShareIdx ∧
        cast.key.targetId = broadcastTargetId ∧ cast.key.valIdx < validators := by
  rw [verifyRound2Casts, forM_eq_ok_iff]
  refine forall₂_congr fun cast _ => ?_
  unfold verifyCastKey verifyValIdx
  by_cases source : cast.key.sourceId = senderShareIdx
  · by_cases target : cast.key.targetId = broadcastTargetId
    · by_cases known : cast.key.valIdx < validators
      · simp [source, target, known, Nat.not_le.mpr known]
      · simp [source, target, known, Nat.not_lt.mp known]
    · simp [source, target]
  · simp [source]

/-- The casts of verified bundles of all nodes, in any order. -/
structure Received (bundles : Nat → FrostRound2Casts) (nodes validators : Nat)
    (casts : List FrostRound2Cast) : Prop where
  verified : ∀ s, 1 ≤ s → s ≤ nodes → verifyRound2Casts (bundles s) s validators = .ok ()
  interleaved : casts.Perm ((List.range' 1 nodes).flatMap fun s => (bundles s).casts)

/-- One cast for every validator. -/
def OneCastEach (validators : Nat) (msg : FrostRound2Casts) : Prop :=
  ∀ valIdx < validators, (castsFor msg.casts valIdx).length = 1

/-- The artifact of a validator records casts of the senders under their share indices. -/
structure SenderBound (bundles : Nat → FrostRound2Casts) (nodes : Nat)
    (validatorPubkeys secretShares : Dict Nat Bytes) (valIdx : Nat) (share : ValidatorShare) :
    Prop where
  pubkey : validatorPubkeys.get? valIdx = some share.validatorPubkey
  secret : secretShares.get? valIdx = some share.secretShare
  bound : ∀ s vkShare, share.publicShares.shares.get? s = some vkShare →
    1 ≤ s ∧ s ≤ nodes ∧
      ∃ cast ∈ (bundles s).casts, cast.key.valIdx = valIdx ∧ cast.vkShare = vkShare

/-- The artifact of a validator also records a cast of every sender. -/
structure Complete (bundles : Nat → FrostRound2Casts) (nodes : Nat)
    (validatorPubkeys secretShares : Dict Nat Bytes) (valIdx : Nat) (share : ValidatorShare) : Prop
    extends SenderBound bundles nodes validatorPubkeys secretShares valIdx share where
  total : ∀ s, 1 ≤ s → s ≤ nodes → ∃ vkShare, share.publicShares.shares.get? s = some vkShare

/-- Two artifacts with the same keys and the same mapping. -/
structure SameShare (one two : ValidatorShare) : Prop where
  pubkey : one.validatorPubkey = two.validatorPubkey
  secret : one.secretShare = two.secretShare
  shares : ∀ s, one.publicShares.shares.get? s = two.publicShares.shares.get? s

section Interleavings

variable {bundles : Nat → FrostRound2Casts} {nodes validators : Nat} {casts : List FrostRound2Cast}

/-- Every cast is in the bundle of the node it names as its source. -/
theorem Received.mem_iff (received : Received bundles nodes validators casts)
    {cast : FrostRound2Cast} :
    cast ∈ casts ↔ 1 ≤ cast.key.sourceId ∧ cast.key.sourceId ≤ nodes ∧
      cast ∈ (bundles cast.key.sourceId).casts := by
  rw [received.interleaved.mem_iff, List.mem_flatMap]
  constructor
  · rintro ⟨s, inRange, member⟩
    obtain ⟨low, high⟩ := List.mem_range'_1.mp inRange
    have source :=
      (verifyRound2Casts_eq_ok_iff.mp (received.verified s low (by omega)) cast member).1
    rw [source]
    exact ⟨low, by omega, member⟩
  · rintro ⟨low, high, member⟩
    exact ⟨cast.key.sourceId, List.mem_range'_1.mpr ⟨low, by omega⟩, member⟩

theorem Received.valIdx_lt (received : Received bundles nodes validators casts)
    {cast : FrostRound2Cast} (member : cast ∈ casts) : cast.key.valIdx < validators := by
  obtain ⟨low, high, inBundle⟩ := received.mem_iff.mp member
  exact (verifyRound2Casts_eq_ok_iff.mp (received.verified _ low high) cast inBundle).2.2

/-- A recorded share is the one of a cast for the validator and the sender. -/
theorem exists_cast_of_get?_sharesFor {valIdx s : Nat} {vkShare : Bytes}
    (stored : (sharesFor casts valIdx).get? s = some vkShare) :
    ∃ cast ∈ casts, cast.key.valIdx = valIdx ∧ cast.key.sourceId = s ∧ cast.vkShare = vkShare := by
  rw [sharesFor, get?_foldl_set, Option.map_eq_some_iff] at stored
  obtain ⟨cast, last, same⟩ := stored
  obtain ⟨member, source⟩ := List.mem_filter.mp (List.mem_of_getLast? last)
  obtain ⟨among, own⟩ := mem_castsFor.mp member
  exact ⟨cast, among, own, of_decide_eq_true source, same⟩

/-- Every cast is recorded, unless a later one of its sender replaces it. -/
theorem exists_get?_sharesFor {cast : FrostRound2Cast} (member : cast ∈ casts) :
    ∃ vkShare, (sharesFor casts cast.key.valIdx).get? cast.key.sourceId = some vkShare := by
  have kept : cast ∈ (castsFor casts cast.key.valIdx).filter
      fun other => other.key.sourceId = cast.key.sourceId :=
    List.mem_filter.mpr ⟨mem_castsFor.mpr ⟨member, rfl⟩, decide_eq_true rfl⟩
  rw [sharesFor, get?_foldl_set, List.getLast?_eq_some_getLast (List.ne_nil_of_mem kept)]
  exact ⟨_, rfl⟩

/-- Received casts give sender-bound artifacts. -/
theorem Received.senderBound (received : Received bundles nodes validators casts) {valIdx : Nat}
    (material : HasMaterial validatorPubkeys secretShares valIdx) :
    SenderBound bundles nodes validatorPubkeys secretShares valIdx
      (shareOf casts validatorPubkeys secretShares valIdx) := by
  obtain ⟨pubkey, hasPubkey⟩ := Option.isSome_iff_exists.mp material.pubkey
  obtain ⟨secret, hasSecret⟩ := Option.isSome_iff_exists.mp material.secret
  constructor
  · rw [shareOf, hasPubkey, Option.getD_some]
  · rw [shareOf, hasSecret, Option.getD_some]
  · intro s vkShare stored
    obtain ⟨cast, member, own, rfl, same⟩ := exists_cast_of_get?_sharesFor stored
    obtain ⟨low, high, inBundle⟩ := received.mem_iff.mp member
    exact ⟨low, high, cast, inBundle, own, same⟩

/-- A bundle with one cast per validator is recorded whole. -/
theorem Received.total (received : Received bundles nodes validators casts) {valIdx s : Nat}
    (known : valIdx < validators) (low : 1 ≤ s) (high : s ≤ nodes)
    (each : OneCastEach validators (bundles s)) :
    ∃ vkShare, (sharesFor casts valIdx).get? s = some vkShare := by
  obtain ⟨cast, only⟩ := List.length_eq_one_iff.mp (each valIdx known)
  obtain ⟨inBundle, rfl⟩ := mem_castsFor.mp (only ▸ List.mem_singleton.mpr (rfl : cast = cast))
  have source := (verifyRound2Casts_eq_ok_iff.mp (received.verified s low high) cast inBundle).1
  obtain rfl := source
  exact exists_get?_sharesFor (received.mem_iff.mpr ⟨low, high, inBundle⟩)

/-- The recorded shares depend on the bundles only. -/
theorem Received.get?_sharesFor_le {others : List FrostRound2Cast}
    (received : Received bundles nodes validators casts)
    (again : Received bundles nodes validators others)
    (each : ∀ s, 1 ≤ s → s ≤ nodes → OneCastEach validators (bundles s)) {valIdx s : Nat}
    {vkShare : Bytes} (stored : (sharesFor casts valIdx).get? s = some vkShare) :
    (sharesFor others valIdx).get? s = some vkShare := by
  obtain ⟨cast, member, rfl, rfl, rfl⟩ := exists_cast_of_get?_sharesFor stored
  obtain ⟨low, high, inBundle⟩ := received.mem_iff.mp member
  have known := received.valIdx_lt member
  obtain ⟨other, storedAgain⟩ := again.total known low high (each _ low high)
  obtain ⟨cast', member', own', source', rfl⟩ := exists_cast_of_get?_sharesFor storedAgain
  obtain ⟨-, -, inBundle'⟩ := again.mem_iff.mp member'
  rw [source'] at inBundle'
  obtain ⟨only, single⟩ := List.length_eq_one_iff.mp (each _ low high _ known)
  have first := mem_castsFor.mpr ⟨inBundle, rfl⟩
  have second := mem_castsFor.mpr ⟨inBundle', own'⟩
  rw [single, List.mem_singleton] at first second
  rw [storedAgain, second, ← first]

theorem Received.sameShare {others : List FrostRound2Cast}
    (received : Received bundles nodes validators casts)
    (again : Received bundles nodes validators others)
    (each : ∀ s, 1 ≤ s → s ≤ nodes → OneCastEach validators (bundles s)) (valIdx : Nat) :
    SameShare (shareOf casts validatorPubkeys secretShares valIdx)
      (shareOf others validatorPubkeys secretShares valIdx) := by
  refine ⟨rfl, rfl, fun s => Option.ext fun vkShare => ?_⟩
  exact ⟨received.get?_sharesFor_le again each, again.get?_sharesFor_le received each⟩

/-- With one cast per validator in every bundle exactly the validators of the ceremony
have casts. -/
theorem Received.indices_eq (received : Received bundles nodes validators casts)
    (some_node : 0 < nodes) (each : ∀ s, 1 ≤ s → s ≤ nodes → OneCastEach validators (bundles s)) :
    indices casts = List.range validators := by
  have members : ∀ valIdx, valIdx ∈ indices casts ↔ valIdx ∈ List.range validators := by
    intro valIdx
    rw [mem_indices, List.mem_range]
    constructor
    · rintro ⟨cast, member, rfl⟩
      exact received.valIdx_lt member
    · intro known
      obtain ⟨vkShare, stored⟩ := received.total known (Nat.le_refl 1) some_node
        (each 1 (Nat.le_refl 1) some_node)
      obtain ⟨cast, member, own, -, -⟩ := exists_cast_of_get?_sharesFor stored
      exact ⟨cast, member, own⟩
  exact eq_of_ascending (pairwise_indices casts) List.pairwise_lt_range members

/-- The assembly succeeds for every order of arrival and binds every recorded share to its
sender; from bundles with one cast per validator it assembles all shares of all validators,
and the same ones for every order. -/
theorem assembleValidatorShares_received (received : Received bundles nodes validators casts)
    (material : ∀ valIdx < validators, HasMaterial validatorPubkeys secretShares valIdx) :
    ∃ shares, assembleValidatorShares casts validatorPubkeys secretShares = .ok shares ∧
      (∃ indices, indices.Pairwise (· < ·) ∧
        (∀ valIdx, valIdx ∈ indices ↔ ∃ cast ∈ casts, cast.key.valIdx = valIdx) ∧
        List.Forall₂ (SenderBound bundles nodes validatorPubkeys secretShares) indices shares) ∧
      (0 < nodes → (∀ s, 1 ≤ s → s ≤ nodes → OneCastEach validators (bundles s)) →
        List.Forall₂ (Complete bundles nodes validatorPubkeys secretShares)
          (List.range validators) shares ∧
        ∀ others, Received bundles nodes validators others →
          ∃ again, assembleValidatorShares others validatorPubkeys secretShares = .ok again ∧
            List.Forall₂ SameShare shares again) := by
  have provided : ∀ {others}, Received bundles nodes validators others →
      ∀ valIdx ∈ indices others, HasMaterial validatorPubkeys secretShares valIdx := by
    intro others again valIdx member
    obtain ⟨cast, among, rfl⟩ := mem_indices.mp member
    exact material _ (again.valIdx_lt among)
  refine ⟨_, assembleValidatorShares_eq_ok_iff.mpr ⟨provided received, rfl⟩, ?_, ?_⟩
  · refine ⟨indices casts, pairwise_indices casts, fun _ => mem_indices, ?_⟩
    rw [List.forall₂_map_right_iff, List.forall₂_same]
    exact fun valIdx member => received.senderBound (provided received valIdx member)
  · intro some_node each
    have all := received.indices_eq some_node each
    constructor
    · rw [all, List.forall₂_map_right_iff, List.forall₂_same]
      intro valIdx member
      have known := List.mem_range.mp member
      exact ⟨received.senderBound (material valIdx known),
        fun s low high => received.total known low high (each s low high)⟩
    · intro others again
      refine ⟨_, assembleValidatorShares_eq_ok_iff.mpr ⟨provided again, rfl⟩, ?_⟩
      rw [all, again.indices_eq some_node each, List.forall₂_map_left_iff,
        List.forall₂_map_right_iff, List.forall₂_same]
      exact fun valIdx _ => received.sameShare again each valIdx

end Interleavings

/-! ## A ceremony of two nodes -/

namespace TwoNodes

/-- The cast of a node for a validator. -/
def cast (source valIdx : Fin 3) : FrostRound2Cast where
  key := {
    valIdx, sourceId := source, targetId := 0
    valIdx_le := by unfold uint32Max; omega
    sourceId_le := by unfold uint32Max; omega }
  verificationKey := []
  vkShare := [UInt8.ofNat source, UInt8.ofNat valIdx]

/-- Two nodes with one cast for each of two validators. -/
def bundles : Nat → FrostRound2Casts
  | 1 => { casts := [cast 1 0, cast 1 1] }
  | 2 => { casts := [cast 2 0, cast 2 1] }
  | _ => {}

/-- Local key material for both validators. -/
def material : Dict Nat Bytes := (Dict.empty.set 0 [8]).set 1 [9]

theorem received : Received bundles 2 2 [cast 2 1, cast 1 0, cast 2 0, cast 1 1] := by
  refine ⟨fun s low high => ?_, by decide⟩
  obtain rfl | rfl : s = 1 ∨ s = 2 := by omega
  · rfl
  · rfl

theorem oneCastEach {s : Nat} (low : 1 ≤ s) (high : s ≤ 2) : OneCastEach 2 (bundles s) := by
  obtain rfl | rfl : s = 1 ∨ s = 2 := by omega
  · exact (by decide : ∀ valIdx < 2, (castsFor (bundles 1).casts valIdx).length = 1)
  · exact (by decide : ∀ valIdx < 2, (castsFor (bundles 2).casts valIdx).length = 1)

theorem hasMaterial : ∀ valIdx < 2, HasMaterial material material valIdx := by
  intro valIdx known
  obtain rfl | rfl : valIdx = 0 ∨ valIdx = 1 := by omega
  · exact ⟨rfl, rfl⟩
  · exact ⟨rfl, rfl⟩

end TwoNodes

open TwoNodes in
/-- The casts of two nodes arrive mixed. -/
theorem assembleValidatorShares_received_twoNodes :
    ∃ shares, assembleValidatorShares [cast 2 1, cast 1 0, cast 2 0, cast 1 1] material material =
        .ok shares ∧
      List.Forall₂ (Complete bundles 2 material material) (List.range 2) shares := by
  obtain ⟨shares, assembled, -, complete⟩ := assembleValidatorShares_received received hasMaterial
  exact ⟨shares, assembled, (complete (by decide) fun _ => oneCastEach).1⟩

end DvSpec.Dkg
