import DvSpec.Types.Duty
import Mathlib.Algebra.Group.Nat.Defs
import Mathlib.Data.List.Chain
import Mathlib.Data.List.Induction
import Mathlib.Data.List.TakeWhile

/-!
# Agreed InfoSync results

A node retains its agreed results in the order in which they arrive, and looks
them up by slot.  The lookup stops at the first later slot, so it finds the
governing result of every slot in every state exactly when the results arrive
in the order of their slots.
-/

namespace DvSpec.InfoSync

/-- Number of past agreed results a node retains. -/
def maxResults : Nat := 100

/-- One cluster-wide agreed result. -/
structure InfoSyncResult where
  slot : Nat
  versions : List String
  protocols : List String
  proposals : List String
  slot_lt : slot < 2 ^ 64
  deriving DecidableEq

/-- Append an agreed result to a node's retained history, oldest first. -/
def addResult (results : List InfoSyncResult) (result : InfoSyncResult) : List InfoSyncResult :=
  if result.versions = [] then results
  else if results.getLast? = some result then results
  else
    let updated := results ++ [result]
    if maxResults ≤ updated.length then updated.drop 1 else updated

/-- The loop of `latest_result`. -/
def latestFrom (found : Option InfoSyncResult) (slot : Int) :
    List InfoSyncResult → Option InfoSyncResult
  | [] => found
  | result :: rest => if slot < result.slot then found else latestFrom (some result) slot rest

/-- Find the newest agreed result that governs the given slot. -/
def latestResult (results : List InfoSyncResult) (slot : Int) : Option InfoSyncResult :=
  latestFrom none slot results

/-- The protocol IDs in force at a slot. -/
def selectedProtocols (results : List InfoSyncResult) (slot : Int) (localProtocols : List String) :
    List String :=
  match latestResult results slot with
  | some result => result.protocols
  | none => localProtocols

/-- The proposal types in force at a slot. -/
def selectedProposalTypes (results : List InfoSyncResult) (slot : Int) : List String :=
  match latestResult results slot with
  | some result => result.proposals
  | none => ["full"]

/-- The history retained after a sequence of results. -/
def history (results : List InfoSyncResult) : List InfoSyncResult := results.foldl addResult []

/-! ## What is looked up -/

/-- The lookup finds a retained result with the greatest slot not after the given one, and
none only if all retained results are later. -/
def Governs (results : List InfoSyncResult) (slot : Int) : Prop :=
  match latestResult results slot with
  | some found => found ∈ results ∧ (found.slot : Int) ≤ slot ∧
      ∀ result ∈ results, (result.slot : Int) ≤ slot → result.slot ≤ found.slot
  | none => ∀ result ∈ results, slot < result.slot

/-- Every slot is governed, as by any other node that retains the same results and finds the
governing ones. -/
structure Resolves (results : List InfoSyncResult) : Prop where
  governs : ∀ slot, Governs results slot
  agrees : ∀ others, (∀ result, result ∈ history others ↔ result ∈ results) →
    (∀ slot, Governs (history others) slot) → ∀ slot localProtocols,
      selectedProtocols results slot localProtocols =
          selectedProtocols (history others) slot localProtocols ∧
        selectedProposalTypes results slot = selectedProposalTypes (history others) slot

/-- A result follows another: it is of a later slot, or of the same one with the same content. -/
def Follows (earlier later : InfoSyncResult) : Prop :=
  earlier.slot < later.slot ∨ (earlier.slot = later.slot ∧
    earlier.protocols = later.protocols ∧ earlier.proposals = later.proposals)

/-- The next result is empty or follows the last one retained. -/
def ArrivesInOrder (results : List InfoSyncResult) (result : InfoSyncResult) : Prop :=
  result.versions = [] ∨ ∀ last ∈ results.getLast?, Follows last result

/-- Every result of a sequence arrives in order. -/
def InOrder (results : List InfoSyncResult) : Prop :=
  ∀ before result after, results = before ++ result :: after →
    ArrivesInOrder (history before) result

theorem Follows.refl (result : InfoSyncResult) : Follows result result :=
  Or.inr ⟨rfl, rfl, rfl⟩

theorem Follows.trans {one two three : InfoSyncResult} (first : Follows one two)
    (second : Follows two three) : Follows one three := by
  unfold Follows at *
  rcases first with below | ⟨same, protocols, proposals⟩
  · left
    omega
  · rw [same, protocols, proposals]
    exact second

theorem Follows.slot_le {one two : InfoSyncResult} (follows : Follows one two) :
    one.slot ≤ two.slot := by
  rcases follows with below | ⟨same, -, -⟩
  · exact Nat.le_of_lt below
  · exact Nat.le_of_eq same

/-- The lookup returns the last result before the first later slot. -/
theorem latestFrom_eq (found : Option InfoSyncResult) (slot : Int)
    (results : List InfoSyncResult) :
    latestFrom found slot results =
      ((results.takeWhile fun result => (result.slot : Int) ≤ slot).getLast?).or found := by
  induction results generalizing found with
  | nil => rfl
  | cons result rest ih =>
      rw [latestFrom]
      by_cases later : slot < result.slot
      · rw [if_pos later, List.takeWhile_cons_of_neg (by simpa using later)]
        rfl
      · rw [if_neg later, ih, List.takeWhile_cons_of_pos (by simpa using later)]
        rw [List.getLast?_cons]
        cases (rest.takeWhile fun result => (result.slot : Int) ≤ slot).getLast? <;> rfl

theorem latestResult_eq (results : List InfoSyncResult) (slot : Int) :
    latestResult results slot =
      (results.takeWhile fun result => (result.slot : Int) ≤ slot).getLast? := by
  rw [latestResult, latestFrom_eq, Option.or_none]

/-- Results up to the slot at the end are looked up by their last one. -/
theorem latestResult_concat {results : List InfoSyncResult} {result : InfoSyncResult} {slot : Int}
    (early : ∀ other ∈ results ++ [result], (other.slot : Int) ≤ slot) :
    latestResult (results ++ [result]) slot = some result := by
  have all := List.takeWhile_eq_self_iff.mpr fun other member =>
    decide_eq_true (early other member)
  rw [latestResult_eq, all, List.getLast?_concat]

/-! ## Ordered histories -/

/-- Every result follows all the results before it. -/
def Ordered (results : List InfoSyncResult) : Prop := results.Pairwise Follows

theorem Ordered.concat {results : List InfoSyncResult} {result : InfoSyncResult}
    (ordered : Ordered results) (next : ∀ last ∈ results.getLast?, Follows last result) :
    Ordered (results ++ [result]) := by
  refine List.pairwise_append.mpr ⟨ordered, List.pairwise_singleton _ _, fun earlier member => ?_⟩
  rw [List.forall_mem_singleton]
  cases found : results.getLast? with
  | none =>
      rw [List.getLast?_eq_none_iff] at found
      subst found
      cases member
  | some last =>
      obtain ⟨before, rfl⟩ := List.getLast?_eq_some_iff.mp found
      have follows := next last found
      rcases List.mem_append.mp member with old | same
      · exact ((List.pairwise_append.mp ordered).2.2 earlier old last
          (List.mem_singleton_self last)).trans follows
      · exact (List.mem_singleton.mp same) ▸ follows

/-- Slots never decrease. -/
def Sorted (results : List InfoSyncResult) : Prop :=
  results.Pairwise fun one two => one.slot ≤ two.slot

theorem Ordered.sorted {results : List InfoSyncResult} (ordered : Ordered results) :
    Sorted results := ordered.imp Follows.slot_le

/-- The last result of a sorted history is of the greatest slot. -/
theorem Sorted.slot_le_last {results : List InfoSyncResult} {last : InfoSyncResult}
    (sorted : Sorted results) (found : results.getLast? = some last) :
    ∀ result ∈ results, result.slot ≤ last.slot := by
  obtain ⟨before, rfl⟩ := List.getLast?_eq_some_iff.mp found
  intro result member
  rcases List.mem_append.mp member with old | same
  · exact (List.pairwise_append.mp sorted).2.2 result old last (List.mem_singleton_self last)
  · exact Nat.le_of_eq (congrArg _ (List.mem_singleton.mp same))

/-- Behind the first later slot there are later slots only. -/
theorem Sorted.late_of_mem_dropWhile {results : List InfoSyncResult} (sorted : Sorted results)
    {slot : Int} {result : InfoSyncResult}
    (member : result ∈ results.dropWhile fun result => (result.slot : Int) ≤ slot) :
    slot < result.slot := by
  induction results with
  | nil => cases member
  | cons first rest ih =>
      obtain ⟨above, later⟩ := List.pairwise_cons.mp sorted
      by_cases early : (first.slot : Int) ≤ slot
      · rw [List.dropWhile_cons_of_pos (by simpa using early)] at member
        exact ih later member
      · rw [List.dropWhile_cons_of_neg (by simpa using early)] at member
        rcases List.mem_cons.mp member with rfl | old
        · omega
        · have bound := above result old
          omega

theorem Sorted.governs {results : List InfoSyncResult} (sorted : Sorted results) (slot : Int) :
    Governs results slot := by
  have split := @List.takeWhile_append_dropWhile _ (fun result : InfoSyncResult =>
    decide ((result.slot : Int) ≤ slot)) results
  have sortedPrefix : Sorted (results.takeWhile fun result => (result.slot : Int) ≤ slot) :=
    sorted.sublist (List.takeWhile_sublist _)
  unfold Governs
  rw [latestResult_eq]
  cases found : (results.takeWhile fun result => (result.slot : Int) ≤ slot).getLast? with
  | none =>
      intro result member
      rw [List.getLast?_eq_none_iff] at found
      rw [found, List.nil_append] at split
      rw [← split] at member
      exact sorted.late_of_mem_dropWhile member
  | some last =>
      have inPrefix := List.mem_of_getLast? found
      refine ⟨(List.takeWhile_sublist _).subset inPrefix, ?_, fun result member early => ?_⟩
      · simpa using List.mem_takeWhile_imp inPrefix
      · rw [← split] at member
        rcases List.mem_append.mp member with inside | behind
        · exact sortedPrefix.slot_le_last found result inside
        · have late := sorted.late_of_mem_dropWhile behind
          omega

/-- Results of one slot in an ordered history have the same content. -/
theorem Ordered.content_eq {results : List InfoSyncResult} (ordered : Ordered results)
    {one two : InfoSyncResult} (inOne : one ∈ results) (inTwo : two ∈ results)
    (slots : one.slot = two.slot) :
    (one.protocols, one.proposals) = (two.protocols, two.proposals) := by
  have symm : Std.Symm fun one two : InfoSyncResult => one.slot = two.slot →
      (one.protocols, one.proposals) = (two.protocols, two.proposals) :=
    ⟨fun _ _ same slots => (same slots.symm).symm⟩
  have pairwise : results.Pairwise fun one two => one.slot = two.slot →
      (one.protocols, one.proposals) = (two.protocols, two.proposals) := by
    refine ordered.imp fun follows same => ?_
    rcases follows with below | ⟨-, protocols, proposals⟩
    · omega
    · rw [protocols, proposals]
  exact pairwise.forall_of_forall (fun _ _ _ => rfl) inOne inTwo slots

/-- What governs a slot in one history agrees in content with what governs it in another with
the same results, one of them being ordered. -/
theorem Ordered.same_content {results others : List InfoSyncResult} (ordered : Ordered results)
    (same : ∀ result, result ∈ others ↔ result ∈ results) {slot : Int}
    (governs : Governs others slot) :
    (latestResult results slot).map (fun result => (result.protocols, result.proposals)) =
      (latestResult others slot).map fun result => (result.protocols, result.proposals) := by
  have here := ordered.sorted.governs slot
  unfold Governs at here governs
  cases found : latestResult results slot with
  | none =>
      rw [found] at here
      cases other : latestResult others slot with
      | none => rfl
      | some result =>
          rw [other] at governs
          have late := here result ((same result).mp governs.1)
          have early := governs.2.1
          omega
  | some result =>
      rw [found] at here
      cases other : latestResult others slot with
      | none =>
          rw [other] at governs
          have late := governs result ((same result).mpr here.1)
          have early := here.2.1
          omega
      | some second =>
          rw [other] at governs
          have inResults := (same second).mp governs.1
          have below := governs.2.2 result ((same result).mpr here.1) here.2.1
          have above := here.2.2 second inResults governs.2.1
          have slots : result.slot = second.slot := Nat.le_antisymm below above
          exact congrArg some (ordered.content_eq here.1 inResults slots)

theorem selected_eq_of_same_content {results others : List InfoSyncResult} {slot : Int}
    (same : (latestResult results slot).map (fun result => (result.protocols, result.proposals)) =
      (latestResult others slot).map fun result => (result.protocols, result.proposals))
    (localProtocols : List String) :
    selectedProtocols results slot localProtocols = selectedProtocols others slot localProtocols ∧
      selectedProposalTypes results slot = selectedProposalTypes others slot := by
  unfold selectedProtocols selectedProposalTypes
  cases here : latestResult results slot <;> cases there : latestResult others slot <;>
    simp_all

theorem Ordered.resolves {results : List InfoSyncResult} (ordered : Ordered results) :
    Resolves results where
  governs := ordered.sorted.governs
  agrees _ same governs slot := selected_eq_of_same_content
    (ordered.same_content same (governs slot))

/-! ## Runs -/

theorem history_concat (results : List InfoSyncResult) (result : InfoSyncResult) :
    history (results ++ [result]) = addResult (history results) result := by
  rw [history, List.foldl_append]
  rfl

/-- A result that arrives in order keeps the history ordered. -/
theorem Ordered.addResult {results : List InfoSyncResult} (ordered : Ordered results)
    {result : InfoSyncResult} (arrives : ArrivesInOrder results result) :
    Ordered (addResult results result) := by
  unfold InfoSync.addResult
  split
  · exact ordered
  · rename_i versions
    split
    · exact ordered
    · have appended := ordered.concat (arrives.resolve_left versions)
      dsimp only
      split
      · exact appended.sublist (List.drop_sublist _ _)
      · exact appended

theorem InOrder.of_prefix {before after : List InfoSyncResult} (inOrder : InOrder (before ++ after)) :
    InOrder before := by
  intro earlier result later split
  refine inOrder earlier result (later ++ after) ?_
  rw [split, List.append_assoc, List.cons_append]

theorem inOrder_concat_iff {results : List InfoSyncResult} {result : InfoSyncResult} :
    InOrder (results ++ [result]) ↔ InOrder results ∧ ArrivesInOrder (history results) result := by
  constructor
  · intro inOrder
    exact ⟨inOrder.of_prefix, inOrder results result [] rfl⟩
  · rintro ⟨inOrder, last⟩ before next after split
    rcases List.eq_nil_or_concat after with rfl | ⟨rest, final, rfl⟩
    · obtain ⟨rfl, same⟩ := List.append_inj' split rfl
      exact (List.cons.inj same).1 ▸ last
    · rw [List.concat_eq_append, ← List.cons_append, ← List.append_assoc] at split
      obtain ⟨same, -⟩ := List.append_inj' split rfl
      exact inOrder before next rest same

/-- Results that arrive in order leave an ordered history. -/
theorem ordered_history {results : List InfoSyncResult} (inOrder : InOrder results) :
    Ordered (history results) := by
  induction results using List.reverseRecOn with
  | nil => exact List.Pairwise.nil
  | append_singleton results result ih =>
      obtain ⟨earlier, arrives⟩ := inOrder_concat_iff.mp inOrder
      rw [history_concat]
      exact (ih earlier).addResult arrives

/-- What holds of every retained history: its results are no empty ones, no two in a row are
identical, and it stays below the limit. -/
structure Retained (results : List InfoSyncResult) : Prop where
  versions : ∀ result ∈ results, result.versions ≠ []
  distinct : results.IsChain (· ≠ ·)
  short : results.length < maxResults

theorem Retained.addResult {results : List InfoSyncResult} (retained : Retained results)
    (result : InfoSyncResult) : Retained (addResult results result) := by
  unfold InfoSync.addResult
  split
  · exact retained
  · rename_i versions
    split
    · exact retained
    · rename_i new
      have nonempty : ∀ other ∈ results ++ [result], other.versions ≠ [] := by
        rw [List.forall_mem_append, List.forall_mem_singleton]
        exact ⟨retained.versions, versions⟩
      have chain : (results ++ [result]).IsChain (· ≠ ·) := by
        refine List.isChain_append.mpr ⟨retained.distinct, List.isChain_singleton _, ?_⟩
        intro last isLast first isFirst
        rw [List.head?_cons, Option.mem_some_iff] at isFirst
        exact fun same => new (isFirst ▸ same ▸ isLast)
      have short := retained.short
      dsimp only
      split
      · refine ⟨fun other member => nonempty other (List.mem_of_mem_drop member), chain.drop 1, ?_⟩
        rw [List.length_drop, List.length_append, List.length_singleton]
        omega
      · rename_i few
        exact ⟨nonempty, chain, Nat.lt_of_not_le few⟩

theorem retained_history (results : List InfoSyncResult) : Retained (history results) := by
  induction results using List.reverseRecOn with
  | nil => exact ⟨List.forall_mem_nil _, List.isChain_nil, by decide⟩
  | append_singleton results result ih =>
      rw [history_concat]
      exact ih.addResult result

/-- A retained history is what its own results leave. -/
theorem history_eq_self {results : List InfoSyncResult} (retained : Retained results) :
    history results = results := by
  induction results using List.reverseRecOn with
  | nil => rfl
  | append_singleton results result ih =>
      have short := retained.short
      rw [List.length_append, List.length_singleton] at short
      obtain ⟨chain, -, apart⟩ := List.isChain_append.mp retained.distinct
      have earlier : Retained results :=
        ⟨(List.forall_mem_append.mp retained.versions).1, chain, by omega⟩
      have versions := retained.versions result (List.mem_append_right _ (List.mem_singleton_self _))
      have new : results.getLast? ≠ some result := fun last =>
        apart result last result rfl rfl
      rw [history_concat, ih earlier, addResult, if_neg versions, if_neg new]
      refine if_neg ?_
      rw [List.length_append, List.length_singleton]
      omega

/-! ## Results that arrive late -/

/-- Adding a new result keeps the last one in front of it, at most the oldest being dropped. -/
theorem addResult_concat {before : List InfoSyncResult} {last result : InfoSyncResult}
    (versions : result.versions ≠ []) (new : last ≠ result) :
    ∃ kept, kept.Sublist before ∧ addResult (before ++ [last]) result = kept ++ [last, result] := by
  have notLast : (before ++ [last]).getLast? ≠ some result := by
    rw [List.getLast?_concat]
    exact fun same => new (Option.some.inj same)
  rw [addResult, if_neg versions, if_neg notLast, List.append_assoc, List.singleton_append]
  dsimp only
  split
  · rename_i full
    cases before with
    | nil => simp [maxResults] at full
    | cons first rest => exact ⟨rest, List.sublist_cons_self _ _, rfl⟩
  · exact ⟨before, List.Sublist.refl _, rfl⟩

/-- The slot of the last result before a late one is looked up wrongly. -/
theorem not_governs_of_late {kept : List InfoSyncResult} {last late : InfoSyncResult}
    (sorted : Sorted (kept ++ [last])) (below : late.slot < last.slot) :
    ¬Governs (kept ++ [last, late]) last.slot := by
  intro governs
  have early : ∀ other ∈ (kept ++ [last]) ++ [late], (other.slot : Int) ≤ last.slot := by
    rw [List.forall_mem_append, List.forall_mem_singleton]
    refine ⟨fun other member => ?_, by omega⟩
    exact Int.ofNat_le.mpr (sorted.slot_le_last List.getLast?_concat other member)
  have found := latestResult_concat early
  rw [List.append_assoc, List.singleton_append] at found
  rw [Governs, found] at governs
  have inside : last ∈ kept ++ [last, late] :=
    List.mem_append_right _ (List.mem_cons_self)
  have above := governs.2.2 last inside (Int.le_refl _)
  omega

/-- The two last results, of one slot and with different contents, can be retained the other way
round. -/
theorem retained_swap {kept : List InfoSyncResult} {last second : InfoSyncResult}
    (ordered : Ordered (kept ++ [last])) (slots : last.slot = second.slot)
    (retained : Retained (kept ++ [last, second])) (apart : ¬ Follows last second) :
    Retained (kept ++ [second, last]) := by
  have swap := List.Perm.append_left kept (List.Perm.swap last second [])
  have differ : last ≠ second := fun same => apart (same ▸ Follows.refl last)
  refine ⟨fun result member => retained.versions result (swap.mem_iff.mp member), ?_, ?_⟩
  · refine List.isChain_append.mpr
      ⟨(List.isChain_append.mp retained.distinct).1, List.isChain_pair.mpr differ.symm, ?_⟩
    rintro other isLast first ⟨⟩ rfl
    have follows := (List.pairwise_append.mp ordered).2.2 other (List.mem_of_getLast? isLast) last
      (List.mem_singleton_self last)
    rcases follows with below | ⟨-, protocols, proposals⟩
    · omega
    · exact apart (Or.inr ⟨slots, protocols.symm, proposals.symm⟩)
  · exact swap.length_eq.trans_lt retained.short

/-- Behind a sorted history, two results of its last slot are sorted in both orders, and the
last one of them is looked up at that slot. -/
theorem sorted_pair {kept : List InfoSyncResult} {first second : InfoSyncResult}
    (sorted : Sorted kept) (below : ∀ result ∈ kept, result.slot ≤ first.slot)
    (slots : first.slot = second.slot) :
    Sorted (kept ++ [first, second]) ∧
      latestResult (kept ++ [first, second]) first.slot = some second := by
  constructor
  · refine List.pairwise_append.mpr ⟨sorted, List.pairwise_pair.mpr (Nat.le_of_eq slots), ?_⟩
    intro other old result new
    have bound := below other old
    rcases List.mem_pair.mp new with rfl | rfl <;> omega
  · have found := @latestResult_concat (kept ++ [first]) second first.slot
    rw [List.append_assoc, List.singleton_append] at found
    refine found fun other member => ?_
    rcases List.mem_append.mp member with old | new
    · exact Int.ofNat_le.mpr (below other old)
    · rcases List.mem_pair.mp new with rfl | rfl <;> omega

/-- Two results of the slot at the end of a history are told apart by a node that retains them
the other way round. -/
theorem follows_of_resolves {kept : List InfoSyncResult} {last second : InfoSyncResult}
    (ordered : Ordered (kept ++ [last])) (slots : last.slot = second.slot)
    (retained : Retained (kept ++ [last, second])) (resolves : Resolves (kept ++ [last, second])) :
    Follows last second := by
  by_contra apart
  have sorted : Sorted kept := (List.pairwise_append.mp ordered).1.imp Follows.slot_le
  have below : ∀ result ∈ kept, result.slot ≤ last.slot := fun result member =>
    ((List.pairwise_append.mp ordered).2.2 result member last
      (List.mem_singleton_self last)).slot_le
  obtain ⟨-, here⟩ := sorted_pair sorted below slots
  obtain ⟨swapped, there⟩ := sorted_pair sorted (slots ▸ below) slots.symm
  rw [← slots] at there
  have agrees := resolves.agrees (kept ++ [second, last])
  rw [history_eq_self (retained_swap ordered slots retained apart)] at agrees
  have same : ∀ result, result ∈ kept ++ [second, last] ↔ result ∈ kept ++ [last, second] :=
    fun result => (List.Perm.append_left kept (List.Perm.swap last second [])).mem_iff
  obtain ⟨protocols, proposals⟩ := agrees same swapped.governs last.slot []
  rw [selectedProtocols, selectedProtocols, here, there] at protocols
  rw [selectedProposalTypes, selectedProposalTypes, here, there] at proposals
  exact apart (Or.inr ⟨slots, protocols.symm, proposals.symm⟩)

/-- A result after which everything resolves has arrived in order. -/
theorem arrivesInOrder_of_resolves {results : List InfoSyncResult} {result : InfoSyncResult}
    (ordered : Ordered results) (retained : Retained results)
    (resolves : Resolves (addResult results result)) : ArrivesInOrder results result := by
  by_cases versions : result.versions = []
  · exact Or.inl versions
  refine Or.inr fun last isLast => ?_
  by_contra apart
  obtain ⟨before, rfl⟩ := List.getLast?_eq_some_iff.mp isLast
  have new : last ≠ result := fun same => apart (same ▸ Follows.refl last)
  obtain ⟨kept, sublist, added⟩ := addResult_concat versions new
  have retainedNext := retained.addResult result
  rw [added] at resolves retainedNext
  have keptOrdered : Ordered (kept ++ [last]) := ordered.sublist (sublist.append_right _)
  rcases Nat.lt_trichotomy last.slot result.slot with above | same | below
  · exact apart (Or.inl above)
  · exact apart (follows_of_resolves keptOrdered same retainedNext resolves)
  · exact not_governs_of_late keptOrdered.sorted below (resolves.governs last.slot)

/-! ## The slot lookup -/

/-- Every slot resolves in every state of a run exactly when the results arrive in the order of
their slots, those of one slot having one content. -/
theorem resolves_iff_inOrder (results : List InfoSyncResult) :
    (∀ before after, results = before ++ after → Resolves (history before)) ↔
      InOrder results := by
  constructor
  · intro resolves
    induction results using List.reverseRecOn with
    | nil =>
        intro before result after split
        exact absurd split.symm (by simp)
    | append_singleton results result ih =>
        have earlier : InOrder results := ih fun before after split =>
          resolves before (after ++ [result]) (by rw [split, List.append_assoc])
        refine inOrder_concat_iff.mpr ⟨earlier, ?_⟩
        have here := resolves (results ++ [result]) [] (List.append_nil _).symm
        rw [history_concat] at here
        exact arrivesInOrder_of_resolves (ordered_history earlier) (retained_history results) here
  · rintro inOrder before after rfl
    exact (ordered_history inOrder.of_prefix).resolves

/-- A result agreed at a slot. -/
def resultAt (slot : Nat) (slot_lt : slot < 2 ^ 64) : InfoSyncResult where
  slot := slot
  versions := ["v1.11"]
  protocols := ["/charon/consensus/qbft/2.0.0"]
  proposals := ["full"]
  slot_lt := slot_lt

/-- Slot 31 is recorded after slot 63 and not found. -/
theorem late_result_not_found :
    resultAt 31 (by decide) ∈ history [resultAt 63 (by decide), resultAt 31 (by decide)] ∧
      latestResult (history [resultAt 63 (by decide), resultAt 31 (by decide)]) 31 = none ∧
      ¬Governs (history [resultAt 63 (by decide), resultAt 31 (by decide)]) 31 := by
  have late : resultAt 31 (by decide) ∈
      history [resultAt 63 (by decide), resultAt 31 (by decide)] := by decide
  have missed : latestResult (history [resultAt 63 (by decide), resultAt 31 (by decide)]) 31 =
      none := by decide
  refine ⟨late, missed, fun governs => ?_⟩
  rw [Governs, missed] at governs
  exact absurd (governs _ late) (by decide)

end DvSpec.InfoSync
