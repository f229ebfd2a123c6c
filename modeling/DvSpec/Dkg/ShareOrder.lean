import DvSpec.Dkg.ShareAssembly

/-!
# The order of the public shares

The public shares of a validator are listed in the order in which the first casts of
the nodes arrived.  The order is ascending only if these casts arrived so.
-/

namespace DvSpec.Dkg

open DvSpec.Library DvSpec.Library.Arrival

/-- The public shares are listed in ascending share index order. -/
def AscendingShares (share : ValidatorShare) : Prop :=
  share.publicShares.shares.keys.Pairwise (· < ·)

instance (share : ValidatorShare) : Decidable (AscendingShares share) :=
  inferInstanceAs (Decidable (List.Pairwise _ _))

/-- Where a node is first heard of for a validator, only nodes with smaller share indices
were heard of before. -/
def ArrivesAscending (casts : List FrostRound2Cast) : Prop :=
  ∀ before cast after, casts = before ++ cast :: after →
    (∀ earlier ∈ castsFor before cast.key.valIdx, earlier.key.sourceId ≠ cast.key.sourceId) →
      ∀ earlier ∈ castsFor before cast.key.valIdx, earlier.key.sourceId < cast.key.sourceId

/-- At most one cast for every validator and node. -/
def OneCastPerSlot (casts : List FrostRound2Cast) : Prop :=
  (casts.map fun cast => (cast.key.valIdx, cast.key.sourceId)).Nodup

variable {casts others : List FrostRound2Cast} {validatorPubkeys secretShares : Dict Nat Bytes}
  {shares : List ValidatorShare}

theorem keys_sharesFor (casts : List FrostRound2Cast) (valIdx : Nat) :
    (sharesFor casts valIdx).keys =
      arrivals ((castsFor casts valIdx).map fun cast => cast.key.sourceId) :=
  keys_foldl_set (fun cast : FrostRound2Cast => cast.key.sourceId) (fun _ cast => cast.vkShare) _

theorem mem_keys_sharesFor {valIdx s : Nat} :
    s ∈ (sharesFor casts valIdx).keys ↔
      ∃ cast ∈ casts, cast.key.valIdx = valIdx ∧ cast.key.sourceId = s := by
  rw [keys_sharesFor, mem_arrivals, List.mem_map]
  simp only [mem_castsFor, and_assoc]

/-- The shares of all validators ascend iff the casts of each arrive so. -/
theorem pairwise_keys_sharesFor_iff :
    (∀ valIdx ∈ indices casts, (sharesFor casts valIdx).keys.Pairwise (· < ·)) ↔
      ArrivesAscending casts := by
  have each : ∀ valIdx, (sharesFor casts valIdx).keys.Pairwise (· < ·) ↔
      ∀ before cast after, casts = before ++ cast :: after → cast.key.valIdx = valIdx →
        (∀ earlier ∈ castsFor before valIdx, earlier.key.sourceId ≠ cast.key.sourceId) →
          ∀ earlier ∈ castsFor before valIdx, earlier.key.sourceId < cast.key.sourceId := by
    intro valIdx
    rw [keys_sharesFor, castsFor, pairwise_arrivals_filter_iff]
    simp only [decide_eq_true_iff]
    rfl
  constructor
  · intro ascending before cast after split
    have known : cast ∈ casts := split ▸ List.mem_append_right _ List.mem_cons_self
    exact (each _).mp (ascending _ (mem_indices.mpr ⟨cast, known, rfl⟩)) before cast after split rfl
  · intro arrives valIdx _
    refine (each valIdx).mpr ?_
    rintro before cast after split rfl
    exact arrives before cast after split

/-- With one cast per slot the recorded shares do not depend on the order. -/
theorem get?_sharesFor_le_of_perm (single : OneCastPerSlot casts) (perm : others.Perm casts)
    {valIdx s : Nat} {vkShare : Bytes} (stored : (sharesFor casts valIdx).get? s = some vkShare) :
    (sharesFor others valIdx).get? s = some vkShare := by
  obtain ⟨cast, member, rfl, rfl, rfl⟩ := exists_cast_of_get?_sharesFor stored
  obtain ⟨other, storedAgain⟩ := exists_get?_sharesFor (perm.mem_iff.mpr member)
  obtain ⟨cast', member', own, source, rfl⟩ := exists_cast_of_get?_sharesFor storedAgain
  rw [storedAgain, List.inj_on_of_nodup_map single (perm.mem_iff.mp member') member
    (Prod.ext own source)]

/-- Two orders of arrival that both ascend give the same public shares, also in their order. -/
theorem sharesFor_eq_of_perm (single : OneCastPerSlot casts) (perm : others.Perm casts)
    (arrives : ArrivesAscending casts) (arrivesToo : ArrivesAscending others) {valIdx : Nat}
    (known : valIdx ∈ indices casts) : sharesFor others valIdx = sharesFor casts valIdx := by
  have singleToo : OneCastPerSlot others := (perm.map _).nodup_iff.mpr single
  have knownToo : valIdx ∈ indices others := by
    rw [mem_indices] at known ⊢
    simpa only [perm.mem_iff] using known
  apply Dict.eq_of_keys_eq
  · refine eq_of_ascending (pairwise_keys_sharesFor_iff.mpr arrivesToo valIdx knownToo)
      (pairwise_keys_sharesFor_iff.mpr arrives valIdx known) fun s => ?_
    simp only [mem_keys_sharesFor, perm.mem_iff]
  · intro s
    refine Option.ext fun vkShare => ⟨?_, ?_⟩
    · exact get?_sharesFor_le_of_perm singleToo perm.symm
    · exact get?_sharesFor_le_of_perm single perm

theorem indices_eq_of_perm (perm : others.Perm casts) : indices others = indices casts := by
  refine eq_of_ascending (pairwise_indices others) (pairwise_indices casts) fun valIdx => ?_
  simp only [mem_indices, perm.mem_iff]

/-- Assembled public shares ascend exactly when the casts arrived ascending; nodes for which
they did write the same ordered lists. -/
theorem assembleValidatorShares_ascending_iff
    (assembled : assembleValidatorShares casts validatorPubkeys secretShares = .ok shares) :
    ((∀ share ∈ shares, AscendingShares share) ↔ ArrivesAscending casts) ∧
      (OneCastPerSlot casts → ArrivesAscending casts →
        ∀ others pubkeys secrets again, others.Perm casts → ArrivesAscending others →
          assembleValidatorShares others pubkeys secrets = .ok again →
            again.map ValidatorShare.publicShares = shares.map ValidatorShare.publicShares) := by
  obtain ⟨-, rfl⟩ := assembleValidatorShares_eq_ok_iff.mp assembled
  constructor
  · rw [← pairwise_keys_sharesFor_iff, List.forall_mem_map]
    rfl
  · intro single arrives others pubkeys secrets again perm arrivesToo assembledToo
    obtain ⟨-, rfl⟩ := assembleValidatorShares_eq_ok_iff.mp assembledToo
    rw [indices_eq_of_perm perm, List.map_map, List.map_map]
    refine List.map_congr_left fun valIdx known => ?_
    exact congrArg PublicShares.mk (sharesFor_eq_of_perm single perm arrives arrivesToo known)

open TwoNodes in
/-- The cast of the first node arrives first. -/
theorem assembleValidatorShares_ascending_iff_twoNodes :
    ∃ shares, assembleValidatorShares [cast 1 0, cast 2 0] material material = .ok shares ∧
      ((∀ share ∈ shares, AscendingShares share) ↔ ArrivesAscending [cast 1 0, cast 2 0]) :=
  ⟨_, rfl, (@assembleValidatorShares_ascending_iff [cast 1 0, cast 2 0] material material _ rfl).1⟩

open TwoNodes in
/-- The cast of the second node arrives first, and its share comes out first. -/
theorem assembleValidatorShares_descending :
    ∃ shares again,
      assembleValidatorShares [cast 2 0, cast 1 0] material material = .ok shares ∧
        assembleValidatorShares [cast 1 0, cast 2 0] material material = .ok again ∧
        (¬ ∀ share ∈ shares, AscendingShares share) ∧
        shares.map (fun share => share.publicShares.shares.keys) ≠
          again.map (fun share => share.publicShares.shares.keys) :=
  ⟨_, _, rfl, rfl, by decide, by decide⟩

end DvSpec.Dkg
