import DvSpec.SigAgg.Aggregation
import DvSpec.SigAgg.Trigger

/-!
# What the trigger selects

Every selection is the whole group of one message root, taken from distinct shares.
The roots that reach the threshold in the end are the ones that were selected on the
way, so the choice depends on which signatures were stored and not on their order.
-/

namespace DvSpec.SigAgg

open DvSpec.Library

variable {dutyType : DutyType} {threshold nodes : Nat}

/-! ## The shape of a selection -/

/-- Every selection of a run is made on the signatures stored up to some arrival. -/
theorem mem_triggers {stored sigs selection : List PartialSignature} :
    selection ∈ triggers dutyType threshold stored sigs ↔
      ∃ earlier sig later, sigs = earlier ++ sig :: later ∧
        selectThresholdMatching dutyType (stored ++ (earlier ++ [sig])) threshold =
          some selection := by
  induction sigs generalizing stored with
  | nil => simp [triggers]
  | cons sig rest ih =>
      rw [triggers, List.mem_append, Option.mem_toList, ih]
      constructor
      · rintro (selected | ⟨earlier, filler, later, rfl, selected⟩)
        · exact ⟨[], sig, rest, rfl, selected⟩
        · exact ⟨sig :: earlier, filler, later, rfl, by simpa using selected⟩
      · rintro ⟨earlier, filler, later, decomposed, selected⟩
        cases earlier with
        | nil =>
            obtain ⟨rfl, -⟩ := List.cons.inj decomposed
            exact Or.inl selected
        | cons first earlier =>
            obtain ⟨rfl, tail⟩ := List.cons.inj decomposed
            exact Or.inr ⟨earlier, filler, later, tail, by simpa using selected⟩

theorem length_of_select {sigs selection : List PartialSignature}
    (selected : selectThresholdMatching dutyType sigs threshold = some selection) :
    selection.length = threshold := by
  by_cases signature : dutyType = .signature
  · subst signature
    rw [select_signature] at selected
    split at selected
    · cases selected
      assumption
    · cases selected
  · obtain ⟨root, rfl, counted⟩ := matching_of_select signature selected
    exact (length_matching root sigs).trans counted

theorem sublist_of_select {sigs selection : List PartialSignature}
    (selected : selectThresholdMatching dutyType sigs threshold = some selection) :
    selection.Sublist sigs := by
  by_cases signature : dutyType = .signature
  · subst signature
    rw [select_signature] at selected
    split at selected <;> cases selected
    exact List.Sublist.refl _
  · obtain ⟨root, rfl, -⟩ := matching_of_select signature selected
    exact List.filter_sublist

/-- A selection has exactly `threshold` signatures, of distinct shares. -/
theorem exact_of_mem_selections {sigs selection : List PartialSignature}
    (selected : selection ∈ selections dutyType threshold [] sigs) :
    selection.length = threshold ∧ (shares selection).Nodup := by
  rw [selections_eq] at selected
  obtain ⟨earlier, sig, later, decomposed, chosen⟩ := mem_triggers.mp selected
  have kept : selection.Sublist (firstArrivals [] sigs) := by
    have upto : (earlier ++ [sig]).Sublist (firstArrivals [] sigs) := by
      rw [decomposed, List.append_cons _ sig later]
      exact List.sublist_append_left _ _
    exact (sublist_of_select chosen).trans upto
  exact ⟨length_of_select chosen,
    (nodup_shares_firstArrivals sigs).sublist (kept.map PartialSignature.shareIdx)⟩

/-- No two signatures of one share are ever held together. -/
theorem always_nodup_shares (sigs : List PartialSignature) :
    Machine.Always (deposit dutyType threshold) (fun stored => (shares stored).Nodup) [] sigs := by
  refine Machine.always_invariant (C := fun _ _ => True) ?_ List.nodup_nil fun _ _ => trivial
  intro stored incoming distinct _
  exact nodup_shares_deposit distinct incoming

/-! ## Which roots are selected -/

/-- Some selection of the run consists of signatures over the root. -/
def SelectsOn (root : Bytes) (dutyType : DutyType) (threshold : Nat)
    (sigs : List PartialSignature) : Prop :=
  ∃ selection ∈ selections dutyType threshold [] sigs, ∀ sig ∈ selection, sig.messageRoot = root

/-- A tally that ends at the threshold or above is exactly there after some arrival. -/
theorem exists_exact_prefix {root : Bytes} {stored : List PartialSignature}
    (below : tally root stored < threshold) (sigs : List PartialSignature)
    (reached : threshold ≤ tally root (stored ++ sigs)) :
    ∃ earlier sig later, sigs = earlier ++ sig :: later ∧
      tally root (stored ++ (earlier ++ [sig])) = threshold := by
  induction sigs generalizing stored with
  | nil =>
      rw [List.append_nil] at reached
      exact absurd reached (Nat.not_le_of_lt below)
  | cons sig rest ih =>
      by_cases full : tally root (stored ++ [sig]) = threshold
      · exact ⟨[], sig, rest, rfl, full⟩
      · have one_more : tally root [sig] ≤ 1 := tally_le_length root [sig]
        have still : tally root (stored ++ [sig]) < threshold := by
          rw [tally_append] at full ⊢
          omega
        obtain ⟨earlier, filler, later, rfl, counted⟩ := ih still (by simpa using reached)
        exact ⟨sig :: earlier, filler, later, rfl, by simpa using counted⟩

/-- Every selection outside `SIGNATURE` duties is over a root that reaches the threshold. -/
theorem root_of_mem_triggers {sigs selection : List PartialSignature}
    (grouped : dutyType ≠ .signature)
    (selected : selection ∈ triggers dutyType threshold [] sigs) :
    ∃ root, threshold ≤ tally root sigs ∧ ∀ sig ∈ selection, sig.messageRoot = root := by
  obtain ⟨earlier, sig, later, rfl, chosen⟩ := mem_triggers.mp selected
  obtain ⟨root, rfl, counted⟩ := matching_of_select grouped chosen
  refine ⟨root, ?_, fun sig member => of_decide_eq_true (List.mem_filter.mp member).2⟩
  rw [List.append_cons, tally_append]
  rw [List.nil_append] at counted
  omega

/-- The run selects on a root iff that root counts `threshold` signatures in the end. -/
theorem selectsOn_iff {sigs : List PartialSignature} (some_node : 1 ≤ nodes)
    (inRange : ∀ sig ∈ sigs, sig.shareIdx ≤ nodes) (grouped : dutyType ≠ .signature)
    (root : Bytes) :
    SelectsOn root dutyType (recommendedThreshold nodes) sigs ↔
      recommendedThreshold nodes ≤ tally root (firstArrivals [] sigs) := by
  have positive := recommendedThreshold_pos some_node
  constructor
  · rintro ⟨selection, selected, overRoot⟩
    have exactly := (exact_of_mem_selections selected).1
    rw [selections_eq] at selected
    obtain ⟨other, reached, overOther⟩ := root_of_mem_triggers grouped selected
    obtain ⟨sig, member⟩ := List.exists_mem_of_length_pos (exactly ▸ positive)
    rwa [← overRoot sig member, overOther sig member]
  · intro reached
    have empty : tally root [] < recommendedThreshold nodes := positive
    obtain ⟨earlier, sig, later, decomposed, counted⟩ :=
      exists_exact_prefix empty (firstArrivals [] sigs) (by simpa using reached)
    have fires := (isSome_select_iff grouped positive).mpr ⟨root, counted⟩
    obtain ⟨selection, chosen⟩ := Option.isSome_iff_exists.mp fires
    have selected : selection ∈ triggers dutyType (recommendedThreshold nodes) []
        (firstArrivals [] sigs) := mem_triggers.mpr ⟨earlier, sig, later, decomposed, chosen⟩
    refine ⟨selection, (selections_eq [] sigs).symm ▸ selected, ?_⟩
    obtain ⟨other, enough, overOther⟩ := root_of_mem_triggers grouped selected
    by_cases same : other = root
    · exact same ▸ overOther
    · have few := length_firstArrivals_le inRange
      exact absurd enough (Nat.not_le_of_lt (tally_lt_of_other some_node few same reached))

/-- All selections of a run are over one root. -/
theorem exists_common_root {sigs : List PartialSignature} (some_node : 1 ≤ nodes)
    (inRange : ∀ sig ∈ sigs, sig.shareIdx ≤ nodes) (grouped : dutyType ≠ .signature) :
    ∃ root, ∀ selection ∈ selections dutyType (recommendedThreshold nodes) [] sigs,
      ∀ sig ∈ selection, sig.messageRoot = root := by
  have few := length_firstArrivals_le inRange
  by_cases some_root : ∃ root, recommendedThreshold nodes ≤ tally root (firstArrivals [] sigs)
  · obtain ⟨root, reached⟩ := some_root
    refine ⟨root, fun selection selected => ?_⟩
    rw [selections_eq] at selected
    obtain ⟨other, enough, overOther⟩ := root_of_mem_triggers grouped selected
    by_cases same : other = root
    · exact same ▸ overOther
    · exact absurd enough (Nat.not_le_of_lt (tally_lt_of_other some_node few same reached))
  · refine ⟨[], fun selection selected => ?_⟩
    rw [selections_eq] at selected
    obtain ⟨other, enough, -⟩ := root_of_mem_triggers grouped selected
    exact absurd ⟨other, enough⟩ some_root

/-- The trigger fires at all iff some root counts `threshold` signatures in the end. -/
theorem selections_ne_nil_iff {sigs : List PartialSignature} (some_node : 1 ≤ nodes)
    (inRange : ∀ sig ∈ sigs, sig.shareIdx ≤ nodes) (grouped : dutyType ≠ .signature) :
    selections dutyType (recommendedThreshold nodes) [] sigs ≠ [] ↔
      ∃ root, recommendedThreshold nodes ≤ tally root (firstArrivals [] sigs) := by
  constructor
  · intro fired
    obtain ⟨selection, selected⟩ := List.exists_mem_of_ne_nil _ fired
    rw [selections_eq] at selected
    obtain ⟨root, reached, -⟩ := root_of_mem_triggers grouped selected
    exact ⟨root, reached⟩
  · rintro ⟨root, reached⟩
    obtain ⟨selection, selected, -⟩ := (selectsOn_iff some_node inRange grouped root).mpr reached
    exact List.ne_nil_of_mem selected

/-! ## Orders of arrival -/

/-- No share presents two different signatures. -/
def ConflictFree (sigs : List PartialSignature) : Prop :=
  ∀ first ∈ sigs, ∀ second ∈ sigs, first.shareIdx = second.shareIdx → first = second

/-- Without conflicts every signature ends up stored. -/
theorem mem_append_firstArrivals {stored sigs : List PartialSignature}
    (agree : ConflictFree (stored ++ sigs)) {sig : PartialSignature} (member : sig ∈ sigs) :
    sig ∈ stored ++ firstArrivals stored sigs := by
  induction sigs generalizing stored with
  | nil => cases member
  | cons first rest ih =>
      rw [firstArrivals]
      by_cases taken : first.shareIdx ∈ shares stored
      · rw [if_pos taken]
        rcases List.mem_cons.mp member with rfl | later
        · obtain ⟨holder, held, same⟩ := List.mem_map.mp taken
          have equal := agree holder (List.mem_append_left _ held) sig
            (List.mem_append_right _ List.mem_cons_self) same
          exact List.mem_append_left _ (equal ▸ held)
        · refine ih ?_ later
          intro one oneIn two twoIn
          have weaken : ∀ sig, sig ∈ stored ++ rest → sig ∈ stored ++ first :: rest := by
            intro sig old
            rcases List.mem_append.mp old with old | old
            · exact List.mem_append_left _ old
            · exact List.mem_append_right _ (List.mem_cons_of_mem _ old)
          exact agree one (weaken one oneIn) two (weaken two twoIn)
      · rw [if_neg taken, List.append_cons]
        rcases List.mem_cons.mp member with rfl | later
        · exact List.mem_append_left _ (List.mem_append_right _ List.mem_cons_self)
        · refine ih ?_ later
          rwa [List.append_assoc, List.singleton_append]

/-- Conflict-free signatures are stored alike in every order. -/
theorem firstArrivals_perm {sigs reordered : List PartialSignature} (agree : ConflictFree sigs)
    (same : reordered.Perm sigs) :
    (firstArrivals [] reordered).Perm (firstArrivals [] sigs) := by
  have agree' : ConflictFree reordered := fun first firstIn second secondIn =>
    agree first (same.mem_iff.mp firstIn) second (same.mem_iff.mp secondIn)
  have mem_iff : ∀ sigs : List PartialSignature, ConflictFree sigs → ∀ sig,
      sig ∈ firstArrivals [] sigs ↔ sig ∈ sigs := by
    intro sigs agree sig
    constructor
    · intro stored
      exact firstArrivals_subset [] sigs stored
    · intro member
      exact @mem_append_firstArrivals [] sigs agree sig member
  have distinct : ∀ sigs : List PartialSignature, (firstArrivals [] sigs).Nodup := fun sigs =>
    List.Nodup.of_map _ (nodup_shares_firstArrivals sigs)
  refine (List.perm_ext_iff_of_nodup (distinct reordered) (distinct sigs)).mpr fun sig => ?_
  rw [mem_iff reordered agree', mem_iff sigs agree, same.mem_iff]

/-- The stored shares are distinct throughout; every selection is an exact, distinct,
accepted threshold group; all selections are over one root, made iff some root reaches the
threshold; and conflict-free signatures select alike in every order. -/
theorem selections_unambiguous (dutyType : DutyType) (nodes : Nat) (some_node : 1 ≤ nodes)
    (sigs : List PartialSignature) (inRange : ∀ sig ∈ sigs, sig.shareIdx ≤ nodes) :
    Machine.Always (deposit dutyType (recommendedThreshold nodes))
        (fun stored => (shares stored).Nodup) [] sigs ∧
      (∀ selection ∈ selections dutyType (recommendedThreshold nodes) [] sigs,
        selection.length = recommendedThreshold nodes ∧ (shares selection).Nodup ∧
          ∃ inputs, selectAggregationInputs selection (recommendedThreshold nodes) = .ok inputs ∧
            inputs.size = recommendedThreshold nodes ∧
            ∀ sig ∈ selection, inputs.get? sig.shareIdx = some sig.signature) ∧
      (dutyType ≠ .signature →
        (∃ root, ∀ selection ∈ selections dutyType (recommendedThreshold nodes) [] sigs,
          ∀ sig ∈ selection, sig.messageRoot = root) ∧
        (selections dutyType (recommendedThreshold nodes) [] sigs ≠ [] ↔
          ∃ root, recommendedThreshold nodes ≤
            tally root (storedAfter dutyType (recommendedThreshold nodes) [] sigs)) ∧
        ∀ reordered : List PartialSignature, ConflictFree sigs → reordered.Perm sigs →
          ∀ root, SelectsOn root dutyType (recommendedThreshold nodes) reordered ↔
            SelectsOn root dutyType (recommendedThreshold nodes) sigs) := by
  refine ⟨always_nodup_shares sigs, ?_, fun grouped => ⟨?_, ?_, ?_⟩⟩
  · intro selection selected
    obtain ⟨exactly, distinct⟩ := exact_of_mem_selections selected
    obtain ⟨inputs, accepted, size, kept⟩ :=
      selectAggregationInputs_of_distinct distinct (Nat.le_of_eq exactly.symm)
    exact ⟨exactly, distinct, inputs, accepted, size.trans exactly, kept⟩
  · exact exists_common_root some_node inRange grouped
  · rw [storedAfter_eq, List.nil_append]
    exact selections_ne_nil_iff some_node inRange grouped
  · intro reordered agree same root
    have inRange' : ∀ sig ∈ reordered, sig.shareIdx ≤ nodes := fun sig member =>
      inRange sig (same.mem_iff.mp member)
    rw [selectsOn_iff some_node inRange' grouped, selectsOn_iff some_node inRange grouped,
      tally, tally, (firstArrivals_perm agree same).countP_eq]

/-- Three of four nodes sign alike and the fourth does not. -/
theorem selections_unambiguous_diverging :
    ∃ root, ∀ selection ∈ selections .attester (recommendedThreshold 4) [] divergingSignatures,
      ∀ sig ∈ selection, sig.messageRoot = root := by
  have laws := selections_unambiguous .attester 4 (by decide) divergingSignatures (by decide)
  exact (laws.2.2 (by decide)).1

end DvSpec.SigAgg
