import DvSpec.SigAgg.Threshold
import Mathlib.Data.List.Perm.Subperm

/-!
# How often the trigger fires

At most one message root can reach the threshold, because two groups of that size
would need more share indices than there are nodes.  The trigger fires on every
stored signature that leaves that root's group at exactly the threshold, so it
fires again whenever the next signature stored is over another root.
-/

namespace DvSpec.SigAgg

open DvSpec.Library

variable {dutyType : DutyType} {threshold nodes : Nat}

/-! ## What is stored -/

theorem firstArrivals_subset (stored sigs : List PartialSignature) :
    firstArrivals stored sigs ⊆ sigs := by
  induction sigs generalizing stored with
  | nil => exact List.Subset.refl _
  | cons sig rest ih =>
      rw [firstArrivals]
      split
      · exact List.subset_cons_of_subset _ (ih stored)
      · exact List.cons_subset_cons _ (ih _)

theorem nodup_shares_concat {stored : List PartialSignature} {sig : PartialSignature}
    (distinct : (shares stored).Nodup) (fresh : sig.shareIdx ∉ shares stored) :
    (shares (stored ++ [sig])).Nodup := by
  rw [shares, List.map_append, List.nodup_append]
  refine ⟨distinct, List.nodup_singleton _, ?_⟩
  intro first old second new equal
  rw [List.map_singleton, List.mem_singleton] at new
  exact fresh (new ▸ equal ▸ old)

/-- Storing a signature keeps one signature per share. -/
theorem nodup_shares_deposit {stored : List PartialSignature} (distinct : (shares stored).Nodup)
    (incoming : PartialSignature) :
    (shares (deposit dutyType threshold stored incoming).2).Nodup := by
  by_cases taken : incoming.shareIdx ∈ shares stored
  · rw [deposit_of_taken taken]
    exact distinct
  · rw [deposit_of_fresh taken]
    exact nodup_shares_concat distinct taken

/-- Signatures of distinct shares stay so when the arrivals are added. -/
theorem nodup_shares_append {stored : List PartialSignature} (distinct : (shares stored).Nodup)
    (sigs : List PartialSignature) : (shares (stored ++ firstArrivals stored sigs)).Nodup := by
  induction sigs generalizing stored with
  | nil => simpa [firstArrivals] using distinct
  | cons sig rest ih =>
      rw [firstArrivals]
      by_cases taken : sig.shareIdx ∈ shares stored
      · rw [if_pos taken]
        exact ih distinct
      · rw [if_neg taken]
        simpa using ih (nodup_shares_concat distinct taken)

theorem nodup_shares_firstArrivals (sigs : List PartialSignature) :
    (shares (firstArrivals [] sigs)).Nodup := by
  have none_held : (shares []).Nodup := List.nodup_nil
  simpa using nodup_shares_append none_held sigs

/-- Distinct share indices in `1..nodes` are at most `nodes` many. -/
theorem length_le_of_nodup_shares {sigs : List PartialSignature}
    (distinct : (shares sigs).Nodup) (inRange : ∀ sig ∈ sigs, sig.shareIdx ≤ nodes) :
    sigs.length ≤ nodes := by
  have included : shares sigs ⊆ List.range' 1 nodes := by
    intro share member
    obtain ⟨sig, stored, rfl⟩ := List.mem_map.mp member
    have least := sig.one_le_shareIdx
    have most := inRange sig stored
    exact List.mem_range'_1.mpr ⟨least, by omega⟩
  have bound := (distinct.subperm included).length_le
  rwa [shares, List.length_map, List.length_range'] at bound

theorem length_firstArrivals_le {sigs : List PartialSignature}
    (inRange : ∀ sig ∈ sigs, sig.shareIdx ≤ nodes) : (firstArrivals [] sigs).length ≤ nodes :=
  length_le_of_nodup_shares (nodup_shares_firstArrivals sigs) fun sig member =>
    inRange sig (firstArrivals_subset [] sigs member)

/-- Among at most `nodes` signatures a second root stays below the threshold. -/
theorem tally_lt_of_other {sigs : List PartialSignature} (some_node : 1 ≤ nodes)
    (few : sigs.length ≤ nodes) {root other : Bytes} (different : other ≠ root)
    (reached : recommendedThreshold nodes ≤ tally root sigs) :
    tally other sigs < recommendedThreshold nodes := by
  have both := tally_add_tally_le different sigs
  have overlap := lt_two_mul_recommendedThreshold some_node
  omega

/-! ## Counting the evaluations that fire -/

/-- The number of further signatures that leave a root's group at exactly `threshold`. -/
def exactArrivals (root : Bytes) (threshold : Nat) (stored : List PartialSignature) :
    List PartialSignature → Nat
  | [] => 0
  | sig :: rest =>
      (if tally root (stored ++ [sig]) = threshold then 1 else 0) +
        exactArrivals root threshold (stored ++ [sig]) rest

theorem exactArrivals_of_over {root : Bytes} {stored : List PartialSignature}
    (exceeded : threshold < tally root stored) (sigs : List PartialSignature) :
    exactArrivals root threshold stored sigs = 0 := by
  induction sigs generalizing stored with
  | nil => rfl
  | cons sig rest ih =>
      have still : threshold < tally root (stored ++ [sig]) := by
        rw [tally_append]
        omega
      rw [exactArrivals, if_neg (Nat.ne_of_gt still), ih still]

/-- A full group is left alone iff the next signature joins it. -/
theorem exactArrivals_eq_zero_iff {root : Bytes} {stored : List PartialSignature}
    (exactly : tally root stored = threshold) (sigs : List PartialSignature) :
    exactArrivals root threshold stored sigs = 0 ↔
      ∀ next later, sigs = next :: later → next.messageRoot = root := by
  cases sigs with
  | nil => simp [exactArrivals]
  | cons sig rest =>
      rw [exactArrivals, tally_append, tally_singleton, exactly]
      by_cases joins : sig.messageRoot = root
      · have exceeded : threshold < tally root (stored ++ [sig]) := by
          rw [tally_append, tally_singleton, if_pos joins, exactly]
          exact Nat.lt_succ_self _
        rw [exactArrivals_of_over exceeded, if_pos joins, if_neg (Nat.succ_ne_self _)]
        simp [joins]
      · rw [if_neg joins, if_pos (Nat.add_zero _)]
        refine ⟨fun none => absurd none (by omega), fun same => ?_⟩
        exact absurd (same sig rest rfl) joins

/-- A group below the threshold is left at it at most once iff, when it fills up, the
next signature joins it. -/
theorem exactArrivals_le_one_iff {root : Bytes} {stored : List PartialSignature}
    (below : tally root stored < threshold) (sigs : List PartialSignature) :
    exactArrivals root threshold stored sigs ≤ 1 ↔
      ∀ earlier sig next later, sigs = earlier ++ sig :: next :: later →
        sig.messageRoot = root → tally root (stored ++ (earlier ++ [sig])) = threshold →
          next.messageRoot = root := by
  induction sigs generalizing stored with
  | nil => simp [exactArrivals]
  | cons sig rest ih =>
      rw [exactArrivals]
      by_cases full : tally root (stored ++ [sig]) = threshold
      · -- the group fills up here, so every later signature of this root is beyond it
        have joins : sig.messageRoot = root := by
          by_contra other
          rw [tally_append, tally_singleton, if_neg other] at full
          omega
        have once : 1 + exactArrivals root threshold (stored ++ [sig]) rest ≤ 1 ↔
            exactArrivals root threshold (stored ++ [sig]) rest = 0 := by omega
        rw [if_pos full, once, exactArrivals_eq_zero_iff full]
        constructor
        · intro follows earlier filler next later decomposed ofRoot counted
          cases earlier with
          | nil =>
              obtain ⟨rfl, rfl⟩ := List.cons.inj decomposed
              exact follows next later rfl
          | cons first earlier =>
              obtain ⟨rfl, -⟩ := List.cons.inj decomposed
              rw [List.cons_append, List.append_cons, tally_append,
                full, tally_append, tally_singleton, if_pos ofRoot] at counted
              omega
        · rintro follows next later rfl
          exact follows [] sig next later rfl joins full
      · have stays : tally root (stored ++ [sig]) < threshold := by
          have one_more : tally root [sig] ≤ 1 := tally_le_length root [sig]
          rw [tally_append] at full ⊢
          omega
        rw [if_neg full, Nat.zero_add, ih stays]
        constructor
        · intro follows earlier filler next later decomposed ofRoot counted
          cases earlier with
          | nil =>
              obtain ⟨rfl, -⟩ := List.cons.inj decomposed
              exact absurd counted full
          | cons first earlier =>
              obtain ⟨rfl, tail⟩ := List.cons.inj decomposed
              refine follows earlier filler next later tail ofRoot ?_
              simpa using counted
        · rintro follows earlier filler next later rfl ofRoot counted
          refine follows (sig :: earlier) filler next later rfl ofRoot ?_
          simpa using counted

theorem triggers_eq_nil {stored sigs : List PartialSignature} (grouped : dutyType ≠ .signature)
    (below : ∀ root, tally root (stored ++ sigs) < threshold) :
    triggers dutyType threshold stored sigs = [] := by
  induction sigs generalizing stored with
  | nil => rfl
  | cons sig rest ih =>
      rw [List.append_cons] at below
      have silent : selectThresholdMatching dutyType (stored ++ [sig]) threshold = none := by
        by_contra selects
        obtain ⟨selection, selected⟩ := Option.ne_none_iff_exists'.mp selects
        obtain ⟨root, -, counted⟩ := matching_of_select grouped selected
        have := below root
        rw [tally_append] at this
        omega
      rw [triggers, silent, ih below]
      rfl

/-- When only one root can reach the threshold, the trigger fires as often as that root's
group is left at exactly the threshold. -/
theorem length_triggers {stored sigs : List PartialSignature} {root : Bytes}
    (grouped : dutyType ≠ .signature) (positive : 0 < threshold)
    (others : ∀ other, other ≠ root → tally other (stored ++ sigs) < threshold) :
    (triggers dutyType threshold stored sigs).length =
      exactArrivals root threshold stored sigs := by
  induction sigs generalizing stored with
  | nil => rfl
  | cons sig rest ih =>
      rw [List.append_cons] at others
      have fires : (selectThresholdMatching dutyType (stored ++ [sig]) threshold).isSome ↔
          tally root (stored ++ [sig]) = threshold := by
        rw [isSome_select_iff grouped positive]
        refine ⟨?_, fun counted => ⟨root, counted⟩⟩
        rintro ⟨other, counted⟩
        by_cases same : other = root
        · exact same ▸ counted
        · have := others other same
          rw [tally_append] at this
          omega
      rw [triggers, exactArrivals, List.length_append, ih others, Option.length_toList]
      congr 1
      simp only [fires]

/-- A `SIGNATURE` duty fires when the store reaches `threshold` signatures, and never again. -/
theorem length_triggers_signature (stored sigs : List PartialSignature) :
    (triggers .signature threshold stored sigs).length =
      if stored.length < threshold ∧ threshold ≤ stored.length + sigs.length then 1 else 0 := by
  induction sigs generalizing stored with
  | nil =>
      rw [if_neg]
      · rfl
      · rintro ⟨below, reached⟩
        exact Nat.not_lt_of_le reached below
  | cons sig rest ih =>
      rw [triggers, List.length_append, ih, select_signature, List.length_append,
        List.length_singleton, List.length_cons, Option.length_toList]
      split_ifs <;> simp_all <;> omega

/-! ## Firing at most once -/

/-- The signature that fills its root's group is followed by one over the same root. -/
def SameRootFollows (threshold : Nat) (sigs : List PartialSignature) : Prop :=
  ∀ earlier sig next later, sigs = earlier ++ sig :: next :: later →
    tally sig.messageRoot (earlier ++ [sig]) = threshold → next.messageRoot = sig.messageRoot

theorem length_triggers_le_one_iff {sigs : List PartialSignature} (some_node : 1 ≤ nodes)
    (few : sigs.length ≤ nodes) (grouped : dutyType ≠ .signature) :
    (triggers dutyType (recommendedThreshold nodes) [] sigs).length ≤ 1 ↔
      SameRootFollows (recommendedThreshold nodes) sigs := by
  have positive := recommendedThreshold_pos some_node
  by_cases some_root : ∃ root, recommendedThreshold nodes ≤ tally root sigs
  · obtain ⟨root, reached⟩ := some_root
    have others : ∀ other, other ≠ root →
        tally other ([] ++ sigs) < recommendedThreshold nodes := fun other different =>
      tally_lt_of_other some_node few different reached
    rw [length_triggers grouped positive others, exactArrivals_le_one_iff positive]
    constructor
    · intro follows earlier sig next later decomposed counted
      have ofRoot : sig.messageRoot = root := by
        by_contra other
        have := others sig.messageRoot other
        rw [List.nil_append, decomposed, List.append_cons,
          tally_append] at this
        omega
      exact ofRoot ▸ follows earlier sig next later decomposed ofRoot (ofRoot ▸ counted)
    · rintro follows earlier sig next later decomposed rfl counted
      exact follows earlier sig next later decomposed counted
  · have below : ∀ root, tally root ([] ++ sigs) < recommendedThreshold nodes := fun root =>
      Nat.lt_of_not_le fun reached => some_root ⟨root, reached⟩
    rw [triggers_eq_nil grouped below]
    refine ⟨fun _ earlier sig next later decomposed counted => ?_, fun _ => Nat.zero_le _⟩
    have := below sig.messageRoot
    rw [List.nil_append, decomposed, List.append_cons,
      tally_append] at this
    omega

/-- The trigger fires at most once exactly for `SIGNATURE` duties and for runs in which
the first signature stored after a group fills up joins that group. -/
theorem length_selections_le_one_iff (dutyType : DutyType) (nodes : Nat) (some_node : 1 ≤ nodes)
    (sigs : List PartialSignature) (inRange : ∀ sig ∈ sigs, sig.shareIdx ≤ nodes) :
    (selections dutyType (recommendedThreshold nodes) [] sigs).length ≤ 1 ↔
      dutyType = .signature ∨
        SameRootFollows (recommendedThreshold nodes) (firstArrivals [] sigs) := by
  rw [selections_eq]
  by_cases signature : dutyType = .signature
  · subst signature
    rw [length_triggers_signature]
    refine ⟨fun _ => Or.inl rfl, fun _ => ?_⟩
    split <;> decide
  · rw [length_triggers_le_one_iff some_node (length_firstArrivals_le inRange) signature,
      or_iff_right signature]

/-- A signature of the given share over a root of one repeated byte. -/
def sampleSignature (index : Nat) (root : UInt8) : PartialSignature where
  shareIdx := index + 1
  signature := List.replicate 96 0
  messageRoot := List.replicate 32 root
  one_le_shareIdx := Nat.le_add_left 1 index
  length_signature := List.length_replicate
  length_messageRoot := List.length_replicate

/-- Three of four nodes sign one root and the fourth another. -/
def divergingSignatures : List PartialSignature :=
  [sampleSignature 0 1, sampleSignature 1 1, sampleSignature 2 1, sampleSignature 3 2]

theorem trigger_refires : ¬∀ (dutyType : DutyType) (nodes : Nat) (sigs : List PartialSignature),
    1 ≤ nodes → (∀ sig ∈ sigs, sig.shareIdx ≤ nodes) →
      (selections dutyType (recommendedThreshold nodes) [] sigs).length ≤ 1 := by
  intro fires_once
  have once := fires_once .attester 4 divergingSignatures (by decide) (by decide)
  exact absurd once (by decide +kernel)

theorem length_selections_le_one_matching :
    (1 ≤ 4 ∧ ∀ sig ∈ divergingSignatures.take 3, sig.shareIdx ≤ 4) ∧
      ((selections .attester (recommendedThreshold 4) [] (divergingSignatures.take 3)).length ≤ 1 ↔
        DutyType.attester = .signature ∨ SameRootFollows (recommendedThreshold 4)
          (firstArrivals [] (divergingSignatures.take 3))) :=
  ⟨by decide, length_selections_le_one_iff .attester 4 (by decide) _ (by decide)⟩

end DvSpec.SigAgg
