import DvSpec.Priority.Counting
import Mathlib.Algebra.Ring.Nat

/-!
# Supporters and positions

The score of a priority is the count weight for every supporter less the
positions it was given.  The positions of many supporters add up, so a larger
number of supporters decides exactly while the positions stay below the weight
of the difference.
-/

namespace DvSpec.Priority

open DvSpec.Encoding DvSpec.Library DvSpec.Library.Raising

variable (sha256 : Bytes → Bytes)

/-- The message proposes the priority for the topic. -/
def Proposes (msg : PriorityMsg) (topic priority : Bytes) : Prop :=
  ∃ proposal ∈ msg.topics, keyOf sha256 proposal.topic = topic ∧
    priority ∈ proposal.priorities.map (keyOf sha256)

instance (msg : PriorityMsg) (topic priority : Bytes) :
    Decidable (Proposes sha256 msg topic priority) :=
  inferInstanceAs (Decidable (∃ proposal ∈ msg.topics, keyOf sha256 proposal.topic = topic ∧
    priority ∈ proposal.priorities.map (keyOf sha256)))

/-- Some message proposes the priority for the topic. -/
def Proposed (msgs : List PriorityMsg) (topic priority : Bytes) : Prop :=
  ∃ msg ∈ msgs, Proposes sha256 msg topic priority

/-- The number of peers that propose a priority. -/
def supporters (msgs : List PriorityMsg) (topic priority : Bytes) : Nat :=
  msgs.countP fun msg => Proposes sha256 msg topic priority

/-- The sum of the positions a priority was given. -/
def penalty (msgs : List PriorityMsg) (topic priority : Bytes) : Nat :=
  (positionsIn sha256 (proposalsFor sha256 msgs topic) priority).sum

/-- The score that is calculated for a priority of a topic. -/
def calculatedScore (msgs : List PriorityMsg) (topic priority : Bytes) : Except PyError Int := do
  let grouped ← proposalsByTopic sha256 (orderedMsgs msgs)
  let tally ← countProposals sha256 ((grouped.get? topic).getD [])
  .ok (tally.score priority)

/-- The result lists the priority for the topic. -/
def Listed (result : PriorityResult) (topic priority : Bytes) : Prop :=
  ∃ topicResult ∈ result.topics, keyOf sha256 topicResult.topic = topic ∧
    ∃ scored ∈ topicResult.priorities, keyOf sha256 scored.priority = priority

variable {sha256}

/-! ## One position for each supporter -/

section Keys

variable {α κ : Type} [DecidableEq κ] {key : α → κ}

theorem filter_key_eq_singleton {items : List α} (distinct : (items.map key).Nodup) {item : α}
    (member : item ∈ items) : (items.filter fun other => key other = key item) = [item] := by
  induction items with
  | nil => cases member
  | cons first rest ih =>
      obtain ⟨fresh, later⟩ := List.nodup_cons.mp distinct
      rcases List.mem_cons.mp member with rfl | old
      · have others : (rest.filter fun other => key other = key item) = [] := by
          refine List.filter_eq_nil_iff.mpr fun other inRest same => fresh ?_
          exact List.mem_map.mpr ⟨other, inRest, of_decide_eq_true same⟩
        rw [List.filter_cons_of_pos (by simp), others]
      · have different : ¬ key first = key item := fun same =>
          fresh (List.mem_map.mpr ⟨item, old, same.symm⟩)
        rw [List.filter_cons_of_neg (by simpa using different), ih later old]

/-- A key stands at one position of a list of distinct keys, or at none. -/
theorem length_filter_zipIdx {items : List α} (distinct : (items.map key).Nodup) (wanted : κ) :
    (items.zipIdx.filter fun entry => key entry.1 = wanted).length =
      if wanted ∈ items.map key then 1 else 0 := by
  have keys : items.zipIdx.map (fun entry => key entry.1) = items.map key := by
    have firsts := congrArg (List.map key) (List.zipIdx_map_fst 0 items)
    rwa [List.map_map] at firsts
  split
  · rename_i present
    rw [← keys] at present distinct
    obtain ⟨entry, member, rfl⟩ := List.mem_map.mp present
    rw [filter_key_eq_singleton distinct member]
    rfl
  · rename_i absent
    rw [← keys] at absent
    rw [List.length_eq_zero_iff, List.filter_eq_nil_iff]
    intro entry member same
    exact absent (List.mem_map.mpr ⟨entry, member, of_decide_eq_true same⟩)

end Keys

theorem positionsIn_append (one two : List Proposal) (priority : Bytes) :
    positionsIn sha256 (one ++ two) priority =
      positionsIn sha256 one priority ++ positionsIn sha256 two priority := by
  simp [positionsIn]

theorem positionsIn_perm {one two : List Proposal} (perm : one.Perm two) (priority : Bytes) :
    (positionsIn sha256 one priority).Perm (positionsIn sha256 two priority) :=
  ((perm.flatMap_right _).filter _).map _

theorem proposalsFor_cons (msg : PriorityMsg) (rest : List PriorityMsg) (topic : Bytes) :
    proposalsFor sha256 (msg :: rest) topic =
      proposalsFor sha256 [msg] topic ++ proposalsFor sha256 rest topic := by
  simp [proposalsFor, proposalsOf]

theorem proposalsFor_perm {msgs others : List PriorityMsg} (perm : msgs.Perm others)
    (topic : Bytes) : (proposalsFor sha256 msgs topic).Perm (proposalsFor sha256 others topic) :=
  (perm.flatMap_right _).filter _

/-- The proposals of one message for a topic are its own entries for that topic. -/
theorem proposalsFor_singleton (msg : PriorityMsg) (topic : Bytes) :
    proposalsFor sha256 [msg] topic =
      (msg.topics.filter fun proposal => keyOf sha256 proposal.topic = topic).map
        fun proposal => (proposal.topic, proposal.priorities) := by
  rw [proposalsFor, proposalsOf, List.flatMap_singleton, List.filter_map]
  rfl

/-- A message with valid topics gives a priority one position if it proposes it. -/
theorem length_positionsIn_single {msg : PriorityMsg} (valid : TopicsValid sha256 msg.topics)
    (topic priority : Bytes) :
    (positionsIn sha256 (proposalsFor sha256 [msg] topic) priority).length =
      if Proposes sha256 msg topic priority then 1 else 0 := by
  by_cases found : ∃ proposal ∈ msg.topics, keyOf sha256 proposal.topic = topic
  · obtain ⟨proposal, member, rfl⟩ := found
    have only := filter_key_eq_singleton valid.distinct member
    have proposes : Proposes sha256 msg (keyOf sha256 proposal.topic) priority ↔
        priority ∈ proposal.priorities.map (keyOf sha256) := by
      refine ⟨?_, fun listed => ⟨proposal, member, rfl, listed⟩⟩
      rintro ⟨other, inTopics, same, listed⟩
      have equal := List.inj_on_of_nodup_map valid.distinct inTopics member same
      exact equal ▸ listed
    have count := length_filter_zipIdx (valid.priorities proposal member).distinct priority
    rw [proposalsFor_singleton, only, positionsIn, List.length_map, List.map_singleton,
      List.flatMap_singleton, count]
    by_cases listed : priority ∈ proposal.priorities.map (keyOf sha256)
    · rw [if_pos listed, if_pos (proposes.mpr listed)]
    · rw [if_neg listed, if_neg fun claimed => listed (proposes.mp claimed)]
  · have none : ¬ Proposes sha256 msg topic priority := by
      rintro ⟨proposal, member, same, -⟩
      exact found ⟨proposal, member, same⟩
    have empty : (msg.topics.filter fun proposal => keyOf sha256 proposal.topic = topic) = [] := by
      refine List.filter_eq_nil_iff.mpr fun proposal member same => found ?_
      exact ⟨proposal, member, of_decide_eq_true same⟩
    rw [if_neg none, proposalsFor_singleton, empty]
    rfl

/-- The number of positions is the number of supporters. -/
theorem length_positionsIn {msgs : List PriorityMsg}
    (valid : ∀ msg ∈ msgs, TopicsValid sha256 msg.topics) (topic priority : Bytes) :
    (positionsIn sha256 (proposalsFor sha256 msgs topic) priority).length =
      supporters sha256 msgs topic priority := by
  induction msgs with
  | nil => rfl
  | cons msg rest ih =>
      obtain ⟨here, later⟩ := List.forall_mem_cons.mp valid
      rw [proposalsFor_cons, positionsIn_append, List.length_append, ih later,
        length_positionsIn_single here, supporters, supporters, List.countP_cons, Nat.add_comm]
      simp

/-! ## Scores -/

theorem weightAt_eq (positions : List Nat) :
    weightAt positions = countWeight * positions.length - positions.sum := by
  induction positions with
  | nil => simp [weightAt]
  | cons position rest ih =>
      unfold weightAt at ih ⊢
      rw [List.map_cons, List.sum_cons, ih, List.length_cons, List.sum_cons]
      unfold countWeight maxPriorities
      omega

/-- The weight of every supporter less the positions. -/
def supportScore (sha256 : Bytes → Bytes) (msgs : List PriorityMsg) (topic priority : Bytes) : Int :=
  countWeight * supporters sha256 msgs topic priority - penalty sha256 msgs topic priority

/-- The tally of a topic holds the support scores. -/
theorem score_tallyOf {msgs : List PriorityMsg} (accepted : Accepted sha256 msgs)
    (topic priority : Bytes) :
    (tallyOf sha256 (proposalsFor sha256 (orderedMsgs msgs) topic)).score priority =
      supportScore sha256 msgs topic priority := by
  have sorted : (orderedMsgs msgs).Perm msgs := List.perm_insertionSort _ _
  have positions := @positionsIn_perm sha256 _ _ (@proposalsFor_perm sha256 _ _ sorted topic) priority
  have score := (@counts_tallyOf sha256 (proposalsFor sha256 (orderedMsgs msgs) topic)).score
    priority
  have weight := weightAt_eq (positionsIn sha256 (proposalsFor sha256 (orderedMsgs msgs) topic)
    priority)
  rw [positions.length_eq, positions.sum_nat, length_positionsIn accepted.topics] at weight
  exact score.trans weight

theorem proposalsFor_strings {msgs : List PriorityMsg} (accepted : Accepted sha256 msgs)
    (topic : Bytes) : ∀ proposal ∈ proposalsFor sha256 msgs topic, ∀ priority ∈ proposal.2,
      priority ≠ .unencodable :=
  fun _ member => (accepted.strings (List.mem_of_mem_filter member)).2.strings

/-- The calculated score is the support score. -/
theorem calculatedScore_eq_ok {msgs : List PriorityMsg} (accepted : Accepted sha256 msgs)
    (topic priority : Bytes) :
    calculatedScore sha256 msgs topic priority = .ok (supportScore sha256 msgs topic priority) := by
  have topics : ∀ msg ∈ orderedMsgs msgs, ∀ proposal ∈ msg.topics, proposal.topic ≠ .unencodable :=
    fun msg member => (accepted.ordered.topics msg member).strings
  have found : ((grouped sha256 (orderedMsgs msgs)).get? topic).getD [] =
      proposalsFor sha256 (orderedMsgs msgs) topic := by
    rw [grouped, Dict.get?_groupBy, ← proposalsFor]
    split
    · rename_i empty
      rw [empty, Option.getD_none]
    · rw [Option.getD_some]
  rw [calculatedScore, proposalsByTopic_eq_ok topics, ok_bind, found,
    countProposals_eq_ok (proposalsFor_strings accepted.ordered topic), ok_bind,
    score_tallyOf accepted]

/-! ## Listed priorities -/

theorem proposed_iff {msgs : List PriorityMsg} {topic priority : Bytes} :
    Proposed sha256 msgs topic priority ↔
      ∃ proposal ∈ proposalsFor sha256 msgs topic, priority ∈ proposal.2.map (keyOf sha256) := by
  constructor
  · rintro ⟨msg, member, proposal, inTopics, same, listed⟩
    refine ⟨(proposal.topic, proposal.priorities), List.mem_filter.mpr ⟨?_, ?_⟩, listed⟩
    · exact mem_proposalsOf.mpr ⟨msg, member, proposal, inTopics, rfl⟩
    · exact decide_eq_true same
  · rintro ⟨proposal, member, listed⟩
    obtain ⟨inMsgs, same⟩ := List.mem_filter.mp member
    obtain ⟨msg, inList, topicProposal, inTopics, rfl⟩ := mem_proposalsOf.mp inMsgs
    exact ⟨msg, inList, topicProposal, inTopics, of_decide_eq_true same, listed⟩

theorem proposed_perm {msgs others : List PriorityMsg} (perm : msgs.Perm others)
    (topic priority : Bytes) :
    Proposed sha256 msgs topic priority ↔ Proposed sha256 others topic priority := by
  simp only [Proposed, perm.mem_iff]

/-- The ranked priorities of a topic are those proposed. -/
theorem mem_ranked_iff {msgs : List PriorityMsg} {topic priority : Bytes} :
    priority ∈ (tallyOf sha256 (proposalsFor sha256 msgs topic)).ranked ↔
      Proposed sha256 msgs topic priority := by
  have counts := @counts_tallyOf sha256 (proposalsFor sha256 msgs topic)
  rw [Tally.ranked, List.mem_insertionSort, counts.seenOrder, counts.seen, proposed_iff]
  constructor
  · rintro ⟨entry, member, same⟩
    obtain ⟨proposal, inTopic, inList⟩ := List.mem_flatMap.mp member
    exact ⟨proposal, inTopic, List.mem_map.mpr ⟨entry.1, List.fst_mem_of_mem_zipIdx inList, same⟩⟩
  · rintro ⟨proposal, inTopic, listed⟩
    obtain ⟨value, inList, same⟩ := List.mem_map.mp listed
    rw [← List.zipIdx_map_fst 0 proposal.2] at inList
    obtain ⟨entry, inZip, rfl⟩ := List.mem_map.mp inList
    exact ⟨entry, List.mem_flatMap.mpr ⟨proposal, inTopic, inZip⟩, same⟩

/-- The scored priorities carry the ranked keys above the minimum. -/
theorem mem_scored_iff {proposals : List Proposal} {minScore : Int} {priority : Bytes} :
    (∃ scored ∈ (tallyOf sha256 proposals).scored minScore,
        keyOf sha256 scored.priority = priority) ↔
      priority ∈ (tallyOf sha256 proposals).ranked ∧
        minScore < (tallyOf sha256 proposals).score priority := by
  have counts := @counts_tallyOf sha256 proposals
  have values : ∀ key ∈ (tallyOf sha256 proposals).ranked,
      keyOf sha256 (((tallyOf sha256 proposals).values.get? key).getD .unencodable) = key := by
    intro key member
    rw [Tally.ranked, List.mem_insertionSort, counts.seenOrder] at member
    obtain ⟨value, found, same⟩ := counts.values key member
    rw [found, Option.getD_some, same]
  constructor
  · rintro ⟨scored, member, same⟩
    obtain ⟨key, kept, rfl⟩ := List.mem_map.mp member
    obtain ⟨ranked, above⟩ := List.mem_filter.mp kept
    rw [← same, values key ranked]
    exact ⟨ranked, of_decide_eq_true above⟩
  · rintro ⟨ranked, above⟩
    refine ⟨_, List.mem_map.mpr ⟨priority, List.mem_filter.mpr ⟨ranked, ?_⟩, rfl⟩,
      values priority ranked⟩
    exact decide_eq_true above

/-- The first proposal for a topic names it. -/
theorem keyOf_headD_proposalsFor {msgs : List PriorityMsg} {topic : Bytes}
    (some_proposal : proposalsFor sha256 msgs topic ≠ []) :
    keyOf sha256 ((proposalsFor sha256 msgs topic).headD (.unencodable, [])).1 = topic := by
  have head : (proposalsFor sha256 msgs topic).headD (.unencodable, []) ∈
      proposalsFor sha256 msgs topic := by
    match proposalsFor sha256 msgs topic, some_proposal with
    | first :: _, _ => exact List.mem_cons_self
  exact of_decide_eq_true (List.mem_filter.mp head).2

/-- A proposed priority is listed when its score exceeds the minimum. -/
theorem listed_iff {msgs : List PriorityMsg} {minRequired : Int} {result : PriorityResult}
    (returned : calculateResult sha256 msgs minRequired = .ok result) {topic priority : Bytes} :
    Listed sha256 result topic priority ↔
      Proposed sha256 msgs topic priority ∧
        minScoreOf minRequired < supportScore sha256 msgs topic priority := by
  obtain ⟨accepted, rfl⟩ := calculateResult_eq_ok_iff.mp returned
  have sorted : (orderedMsgs msgs).Perm msgs := List.perm_insertionSort _ _
  have topics : ∀ item, item ∈ topicsOf sha256 (orderedMsgs msgs) (minScoreOf minRequired) ↔
      ∃ entry ∈ (grouped sha256 (orderedMsgs msgs)).entries,
        (resultFor sha256 (minScoreOf minRequired) entry).2 = item := by
    intro item
    rw [topicsOf, List.mem_map]
    simp only [List.mem_insertionSort, List.mem_map, exists_exists_and_eq_and]
  rw [← score_tallyOf accepted, ← proposed_perm sorted, ← mem_ranked_iff, ← mem_scored_iff, Listed]
  simp only [topics]
  constructor
  · rintro ⟨_, ⟨entry, member, rfl⟩, same, listed⟩
    obtain ⟨nonempty, proposals⟩ := mem_entries_grouped.mp member
    have topicKey : entry.1 = topic := by
      rw [proposals] at nonempty
      rw [← same, ← keyOf_headD_proposalsFor nonempty, ← proposals]
      rfl
    rw [← topicKey, ← proposals]
    exact listed
  · intro listed
    have some_proposal : proposalsFor sha256 (orderedMsgs msgs) topic ≠ [] := by
      have ranked := (mem_scored_iff.mp listed).1
      obtain ⟨proposal, member, -⟩ := proposed_iff.mp (mem_ranked_iff.mp ranked)
      exact List.ne_nil_of_mem member
    have member := mem_entries_grouped.mpr ⟨some_proposal, rfl⟩
    exact ⟨_, ⟨_, member, rfl⟩, keyOf_headD_proposalsFor some_proposal, listed⟩

end DvSpec.Priority
