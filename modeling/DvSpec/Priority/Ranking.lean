import DvSpec.Library.Arrival
import DvSpec.Priority.MessageOrder
import DvSpec.Priority.Specification
import Mathlib.Data.Finset.Max

/-!
# The result meets its specification

Keys are ranked by score in the order of their arrival, which is the order of
their first proposals by peer and position.  The tally of every topic, reported in
the order of the topic hashes, is the specified result.
-/

namespace DvSpec.Priority

open DvSpec.Encoding DvSpec.Library DvSpec.Library.Arrival

variable {sha256 : Bytes → Bytes} {msgs : List PriorityMsg}

/-! ## The order of a tally -/

theorem keys_scores (entries : List (AnyValue × Nat)) :
    (entries.foldl (counted sha256) Tally.empty).scores.keys =
      arrivals (entries.map fun entry => keyOf sha256 entry.1) := by
  induction entries using List.reverseRecOn with
  | nil => rfl
  | append_singleton entries entry ih =>
      rw [List.foldl_append, List.foldl_cons, List.foldl_nil, counted, Dict.keys_set, ih,
        List.map_append, List.map_singleton, arrivals_concat, arrive]

/-- A stored value was counted under its key. -/
theorem values_foldl_counted {entries : List (AnyValue × Nat)} {key : Bytes} {value : AnyValue}
    (found : (entries.foldl (counted sha256) Tally.empty).values.get? key = some value) :
    (∃ position, (value, position) ∈ entries) ∧ keyOf sha256 value = key := by
  induction entries using List.reverseRecOn with
  | nil => cases found
  | append_singleton entries entry ih =>
      rw [List.foldl_append, List.foldl_cons, List.foldl_nil, counted, Dict.get?_set] at found
      split at found
      · rename_i same
        cases found
        exact ⟨⟨entry.2, List.mem_append_right _ (List.mem_singleton.mpr rfl)⟩, same.symm⟩
      · obtain ⟨⟨position, earlier⟩, hashed⟩ := ih found
        exact ⟨⟨position, List.mem_append_left _ earlier⟩, hashed⟩

/-- Ranked keys have descending scores, and ties are in the order of arrival. -/
theorem pairwise_ranked (proposals : List Proposal) :
    (tallyOf sha256 proposals).ranked.Pairwise fun one two =>
      (tallyOf sha256 proposals).score two < (tallyOf sha256 proposals).score one ∨
        (tallyOf sha256 proposals).score one = (tallyOf sha256 proposals).score two ∧
          Precedes ((proposals.flatMap fun proposal => proposal.2.zipIdx).map
            fun entry => keyOf sha256 entry.1) one two := by
  have arrived : (tallyOf sha256 proposals).seenOrder = arrivals
      ((proposals.flatMap fun proposal => proposal.2.zipIdx).map
        fun entry => keyOf sha256 entry.1) :=
    (counts_tallyOf proposals).seenOrder.trans (keys_scores _)
  unfold Tally.ranked
  generalize (tallyOf sha256 proposals).score = score
  have total : Std.Total fun one two : Bytes => -score one ≤ -score two :=
    ⟨fun one two => le_total (-score one) (-score two)⟩
  have trans : IsTrans Bytes fun one two => -score one ≤ -score two :=
    ⟨fun _ _ _ first second => le_trans first second⟩
  have stable := @pairwise_insertionSort_stable _ (fun one two => -score one ≤ -score two) _ _ _ _ _
    (pairwise_precedes ((proposals.flatMap fun proposal => proposal.2.zipIdx).map
      fun entry => keyOf sha256 entry.1))
  rw [← arrived] at stable
  refine stable.imp fun {one two} related => ?_
  obtain ⟨below, ties⟩ := related
  rcases Int.lt_or_le (score two) (score one) with higher | equal
  · exact Or.inl higher
  · exact Or.inr ⟨by omega, ties (by omega)⟩

/-! ## First proposals -/

/-- The entries for a topic with the peers that propose them. -/
def attributed (sha256 : Bytes → Bytes) (msgs : List PriorityMsg) (topic : Bytes) :
    List (String × AnyValue × Nat) :=
  msgs.flatMap fun msg => (entriesFor sha256 [msg] topic).map fun entry => (msg.peerId, entry)

theorem map_attributed (msgs : List PriorityMsg) (topic : Bytes) :
    (attributed sha256 msgs topic).map (fun item => keyOf sha256 item.2.1) =
      (entriesFor sha256 msgs topic).map fun entry => keyOf sha256 entry.1 := by
  rw [attributed, entriesFor_eq_flatMap, List.map_flatMap, List.map_flatMap]
  refine List.flatMap_congr fun msg _ => ?_
  rw [List.map_map]
  rfl

theorem pairwise_orderedMsgs (accepted : Accepted sha256 msgs) :
    (orderedMsgs msgs).Pairwise fun one two => one.peerId < two.peerId := by
  have total : Std.Total fun one two : PriorityMsg => one.peerId ≤ two.peerId :=
    ⟨fun one two => le_total one.peerId two.peerId⟩
  have trans : IsTrans PriorityMsg fun one two => one.peerId ≤ two.peerId :=
    ⟨fun _ _ _ first second => le_trans first second⟩
  have sorted := List.pairwise_insertionSort
    (fun one two : PriorityMsg => one.peerId ≤ two.peerId) msgs
  have distinct := List.pairwise_map.mp accepted.ordered.peers
  exact sorted.imp₂ (fun _ _ below apart => lt_of_le_of_ne below apart) distinct

/-- The entries of ordered messages come by peer, and by position for one peer. -/
theorem pairwise_attributed (accepted : Accepted sha256 msgs) (topic : Bytes) :
    (attributed sha256 (orderedMsgs msgs) topic).Pairwise fun one two =>
      one.1 < two.1 ∨ one.1 = two.1 ∧ one.2.2 < two.2.2 := by
  rw [attributed, List.pairwise_flatMap]
  constructor
  · intro msg member
    rw [List.pairwise_map]
    have positions : (entriesFor sha256 [msg] topic).Pairwise fun one two => one.2 < two.2 := by
      rcases proposalsFor_single (accepted.ordered.topics msg member) topic with
        none | ⟨proposal, -, only⟩
      · rw [entriesFor, none]
        exact List.Pairwise.nil
      · rw [entriesFor, only, List.flatMap_singleton, ← List.pairwise_map (f := Prod.snd),
          List.zipIdx_map_snd]
        exact List.pairwise_lt_range'
    exact positions.imp fun later => Or.inr ⟨rfl, later⟩
  · refine (pairwise_orderedMsgs accepted).imp fun lower one first two second => ?_
    obtain ⟨_, -, rfl⟩ := List.mem_map.mp first
    obtain ⟨_, -, rfl⟩ := List.mem_map.mp second
    exact Or.inl lower

theorem mem_proposers {topic priority : AnyValue} {peer : String} :
    peer ∈ proposers msgs topic priority ↔
      ∃ msg ∈ msgs, msg.peerId = peer ∧ ∃ position, positionOf msg topic priority = some position := by
  simp only [proposers, List.mem_map, List.mem_filter, Option.isSome_iff_exists]
  constructor
  · rintro ⟨msg, ⟨member, proposed⟩, same⟩
    exact ⟨msg, member, same, proposed⟩
  · rintro ⟨msg, member, same, proposed⟩
    exact ⟨msg, ⟨member, proposed⟩, same⟩

theorem exists_proposedFirst {topic priority : AnyValue}
    (proposed : proposers msgs topic priority ≠ []) :
    ∃ peer position, ProposedFirst msgs topic priority peer position := by
  have nonempty : (proposers msgs topic priority).toFinset.Nonempty :=
    (List.toFinset_nonempty_iff _).mpr proposed
  obtain ⟨peer, member, lowest⟩ := Finset.exists_min_image _ id nonempty
  obtain ⟨msg, inMsgs, same, position, here⟩ := mem_proposers.mp (List.mem_toFinset.mp member)
  exact ⟨peer, position, ⟨msg, inMsgs, same, here⟩,
    fun other listed => lowest other (List.mem_toFinset.mpr listed)⟩

/-- A key that arrives before another one was first proposed before it. -/
theorem proposedBefore_of_precedes (accepted : Accepted sha256 msgs)
    (apart : HashesApart sha256 msgs) {topic one two : AnyValue}
    (topicOccurs : topic ∈ stringsOf msgs) (occurs : one ∈ stringsOf msgs)
    (proposed : proposers msgs topic two ≠ [])
    (precedes : Precedes ((entriesFor sha256 (orderedMsgs msgs) (keyOf sha256 topic)).map
      fun entry => keyOf sha256 entry.1) (keyOf sha256 one) (keyOf sha256 two)) :
    ProposedBefore msgs topic one two := by
  have sorted : (orderedMsgs msgs).Perm msgs := List.perm_insertionSort _ _
  have lexicographic := pairwise_attributed accepted (keyOf sha256 topic)
  obtain ⟨before, after, split, different, absent⟩ := precedes
  rw [← map_attributed, List.map_eq_append_iff] at split
  obtain ⟨earlier, others, whole, rfl, rest⟩ := split
  rw [List.map_eq_cons_iff] at rest
  obtain ⟨item, later, rfl, hashed, -⟩ := rest
  -- the item is a proposal of the first priority
  have inWhole : item ∈ attributed sha256 (orderedMsgs msgs) (keyOf sha256 topic) := by
    rw [whole]
    exact List.mem_append_right _ List.mem_cons_self
  obtain ⟨msg, inOrdered, inMsg⟩ := List.mem_flatMap.mp inWhole
  obtain ⟨⟨value, position⟩, entry, rfl⟩ := List.mem_map.mp inMsg
  have inMsgs := sorted.subset inOrdered
  have here := (mem_entriesFor_iff accepted apart inMsgs topicOccurs).mp entry
  obtain rfl : value = one := apart.eq_of_key_eq accepted
    (mem_stringsOf_of_positionOf accepted inMsgs here).2 occurs hashed
  have proposes : msg.peerId ∈ proposers msgs topic value :=
    mem_proposers.mpr ⟨msg, inMsgs, rfl, position, here⟩
  obtain ⟨peer, index, first⟩ := exists_proposedFirst (List.ne_nil_of_mem proposes)
  obtain ⟨other, otherIndex, second⟩ := exists_proposedFirst proposed
  refine ⟨peer, index, other, otherIndex, first, second, ?_⟩
  -- the first proposal of the second priority comes after the item
  obtain ⟨otherMsg, otherMember, rfl, otherHere⟩ := second.proposed
  have otherEntry : (otherMsg.peerId, two, otherIndex) ∈
      attributed sha256 (orderedMsgs msgs) (keyOf sha256 topic) :=
    List.mem_flatMap.mpr ⟨otherMsg, sorted.symm.subset otherMember, List.mem_map.mpr ⟨_,
      (mem_entriesFor_iff accepted apart otherMember topicOccurs).mpr otherHere, rfl⟩⟩
  rw [whole, List.mem_append, List.mem_cons] at otherEntry
  rw [whole, List.pairwise_append] at lexicographic
  have beyond : (otherMsg.peerId, two, otherIndex) ∈ later := by
    rcases otherEntry with old | same | beyond
    · exact absurd (List.mem_map_of_mem (f := fun item => keyOf sha256 item.2.1) old) absent
    · exact absurd (congrArg (fun item => keyOf sha256 item.2.1) same) different
    · exact beyond
  have lower := first.lowest _ proposes
  rcases (List.pairwise_cons.mp lexicographic.2.1).1 _ beyond with peers | ⟨same, positions⟩
  · exact Or.inl (lt_of_le_of_lt lower peers)
  · rcases lt_or_eq_of_le lower with strictly | equal
    · exact Or.inl (lt_of_lt_of_eq strictly same)
    · refine Or.inr ⟨equal.trans same, ?_⟩
      obtain ⟨firstMsg, firstMember, rfl, firstHere⟩ := first.proposed
      obtain rfl := List.inj_on_of_nodup_map accepted.peers firstMember inMsgs equal
      rw [here, Option.some.injEq] at firstHere
      exact firstHere ▸ positions

/-! ## Support -/

theorem length_proposers (topic priority : AnyValue) :
    (proposers msgs topic priority).length =
      (msgs.filterMap fun msg => positionOf msg topic priority).length := by
  rw [proposers, List.length_map, List.length_filterMap_eq_countP, List.countP_eq_length_filter]

/-- A score above the minimum takes the required number of distinct peers. -/
theorem card_proposers_of_lt (accepted : Accepted sha256 msgs) {minRequired : Int}
    {topic priority : AnyValue}
    (above : (minRequired - 1) * 1000 < summedScore msgs topic priority) :
    minRequired ≤ (proposers msgs topic priority).toFinset.card := by
  have distinct : (proposers msgs topic priority).Nodup :=
    accepted.peers.sublist (List.filter_sublist.map _)
  have weight := weightAt_eq (msgs.filterMap fun msg => positionOf msg topic priority)
  have score : summedScore msgs topic priority =
      weightAt (msgs.filterMap fun msg => positionOf msg topic priority) := rfl
  rw [List.toFinset_card_of_nodup distinct, length_proposers]
  unfold countWeight maxPriorities at weight
  omega

/-! ## The result of a topic -/

section Topic

variable (accepted : Accepted sha256 msgs) (apart : HashesApart sha256 msgs) {topic : AnyValue}
  (topicOccurs : topic ∈ stringsOf msgs)

/-- The tally of a topic. -/
def topicTally (sha256 : Bytes → Bytes) (msgs : List PriorityMsg) (topic : AnyValue) : Tally :=
  tallyOf sha256 (proposalsFor sha256 (orderedMsgs msgs) (keyOf sha256 topic))

/-- The string a tally reports for a key. -/
def Tally.valueOf (tally : Tally) (key : Bytes) : AnyValue :=
  (tally.values.get? key).getD .unencodable

include accepted apart topicOccurs

theorem mem_entriesFor_orderedMsgs {value : AnyValue} {position : Nat} :
    (value, position) ∈ entriesFor sha256 (orderedMsgs msgs) (keyOf sha256 topic) ↔
      ∃ msg ∈ msgs, positionOf msg topic value = some position := by
  have sorted : (orderedMsgs msgs).Perm msgs := List.perm_insertionSort _ _
  rw [entriesFor_eq_flatMap, List.mem_flatMap]
  constructor
  · rintro ⟨msg, inOrdered, entry⟩
    have member := sorted.subset inOrdered
    exact ⟨msg, member, (mem_entriesFor_iff accepted apart member topicOccurs).mp entry⟩
  · rintro ⟨msg, member, here⟩
    exact ⟨msg, sorted.symm.subset member,
      (mem_entriesFor_iff accepted apart member topicOccurs).mpr here⟩

/-- A ranked key is reported as a proposed string with this key. -/
theorem valueOf_of_mem_ranked {key : Bytes} (ranked : key ∈ (topicTally sha256 msgs topic).ranked) :
    proposers msgs topic ((topicTally sha256 msgs topic).valueOf key) ≠ [] ∧
      (topicTally sha256 msgs topic).valueOf key ∈ stringsOf msgs ∧
        keyOf sha256 ((topicTally sha256 msgs topic).valueOf key) = key := by
  have counts := @counts_tallyOf sha256
    (proposalsFor sha256 (orderedMsgs msgs) (keyOf sha256 topic))
  rw [topicTally, Tally.ranked, List.mem_insertionSort, counts.seenOrder] at ranked
  obtain ⟨value, found, hashed⟩ := counts.values key ranked
  have reported : (topicTally sha256 msgs topic).valueOf key = value := by
    rw [topicTally, Tally.valueOf, found, Option.getD_some]
  obtain ⟨⟨position, entry⟩, -⟩ := values_foldl_counted found
  obtain ⟨msg, member, here⟩ :=
    (mem_entriesFor_orderedMsgs accepted apart topicOccurs).mp entry
  rw [reported]
  exact ⟨List.ne_nil_of_mem (mem_proposers.mpr ⟨msg, member, rfl, position, here⟩),
    (mem_stringsOf_of_positionOf accepted member here).2, hashed⟩

theorem mem_ranked_of_proposers {priority : AnyValue}
    (proposed : proposers msgs topic priority ≠ []) :
    priority ∈ stringsOf msgs ∧ keyOf sha256 priority ∈ (topicTally sha256 msgs topic).ranked := by
  obtain ⟨peer, listed⟩ := List.exists_mem_of_ne_nil _ proposed
  obtain ⟨msg, member, -, position, here⟩ := mem_proposers.mp listed
  have counts := @counts_tallyOf sha256
    (proposalsFor sha256 (orderedMsgs msgs) (keyOf sha256 topic))
  refine ⟨(mem_stringsOf_of_positionOf accepted member here).2, ?_⟩
  rw [topicTally, Tally.ranked, List.mem_insertionSort, counts.seenOrder, counts.seen]
  exact ⟨(priority, position),
    (mem_entriesFor_orderedMsgs accepted apart topicOccurs).mpr ⟨msg, member, here⟩, rfl⟩

theorem score_topicTally {priority : AnyValue} (occurs : priority ∈ stringsOf msgs) :
    (topicTally sha256 msgs topic).score (keyOf sha256 priority) =
      summedScore msgs topic priority :=
  score_tallyOf_eq accepted apart topicOccurs occurs

/-- The priorities of a topic meet the specification. -/
theorem ranksTopic (minRequired : Int) :
    RanksTopic msgs minRequired
      { topic, priorities := (topicTally sha256 msgs topic).scored (minScoreOf minRequired) } := by
  have counts := @counts_tallyOf sha256
    (proposalsFor sha256 (orderedMsgs msgs) (keyOf sha256 topic))
  have values := fun key => @valueOf_of_mem_ranked _ _ accepted apart _ topicOccurs key
  have order := @pairwise_ranked sha256
    (proposalsFor sha256 (orderedMsgs msgs) (keyOf sha256 topic))
  have distinct : (topicTally sha256 msgs topic).ranked.Nodup := by
    rw [topicTally, Tally.ranked, (List.perm_insertionSort _ _).nodup_iff, counts.seenOrder]
    exact Dict.keys_nodup _
  have scores : ∀ key ∈ (topicTally sha256 msgs topic).ranked,
      (topicTally sha256 msgs topic).score key =
        summedScore msgs topic ((topicTally sha256 msgs topic).valueOf key) := by
    intro key ranked
    obtain ⟨-, occurs, hashed⟩ := values key ranked
    rw [← score_topicTally accepted apart topicOccurs occurs, hashed]
  have listed : ∀ priority,
      priority ∈ ((topicTally sha256 msgs topic).scored (minScoreOf minRequired)).map
          PriorityScoredResult.priority ↔
        proposers msgs topic priority ≠ [] ∧
          (minRequired - 1) * 1000 < summedScore msgs topic priority := by
    intro priority
    rw [Tally.scored, List.map_map, List.mem_map]
    constructor
    · rintro ⟨key, kept, rfl⟩
      obtain ⟨ranked, above⟩ := List.mem_filter.mp kept
      have above := of_decide_eq_true above
      rw [scores key ranked] at above
      exact ⟨(values key ranked).1, above⟩
    · rintro ⟨proposed, above⟩
      obtain ⟨occurs, ranked⟩ := mem_ranked_of_proposers accepted apart topicOccurs proposed
      refine ⟨keyOf sha256 priority, List.mem_filter.mpr ⟨ranked, decide_eq_true ?_⟩, ?_⟩
      · rw [score_topicTally accepted apart topicOccurs occurs]
        exact above
      · obtain ⟨-, reported, hashed⟩ := values _ ranked
        exact apart.eq_of_key_eq accepted reported occurs hashed
  constructor
  · rw [Tally.scored, List.map_map]
    refine (distinct.filter _).map_on fun one first two second same => ?_
    rw [← (values one (List.mem_filter.mp first).1).2.2,
      ← (values two (List.mem_filter.mp second).1).2.2]
    exact congrArg (keyOf sha256) same
  · intro scored member
    obtain ⟨key, kept, rfl⟩ := List.mem_map.mp member
    exact scores key (List.mem_filter.mp kept).1
  · exact listed
  · rw [Tally.scored, List.pairwise_map]
    refine (List.Pairwise.filter _ order).imp_of_mem fun {one two} first second related => ?_
    rcases related with higher | ⟨equal, precedes⟩
    · exact Or.inl higher
    · obtain ⟨-, occurs, oneHashed⟩ := values one (List.mem_filter.mp first).1
      obtain ⟨proposed, -, twoHashed⟩ := values two (List.mem_filter.mp second).1
      refine Or.inr ⟨equal, ?_⟩
      apply proposedBefore_of_precedes accepted apart topicOccurs occurs proposed
      rw [oneHashed, twoHashed]
      exact precedes
  · intro scored member
    exact card_proposers_of_lt accepted ((listed _).mp (List.mem_map_of_mem member)).2

end Topic

/-! ## The result -/

/-- The topics with their hashes, in the order of the result. -/
def sortedResults (sha256 : Bytes → Bytes) (msgs : List PriorityMsg) (minRequired : Int) :
    List (Bytes × PriorityTopicResult) :=
  ((grouped sha256 (orderedMsgs msgs)).entries.map
    (resultFor sha256 (minScoreOf minRequired))).insertionSort fun one two => one.1 ≤ two.1

theorem mem_sortedResults {minRequired : Int} {item : Bytes × PriorityTopicResult} :
    item ∈ sortedResults sha256 msgs minRequired ↔
      proposalsFor sha256 (orderedMsgs msgs) item.1 ≠ [] ∧
        item = resultFor sha256 (minScoreOf minRequired)
          (item.1, proposalsFor sha256 (orderedMsgs msgs) item.1) := by
  rw [sortedResults, List.mem_insertionSort, List.mem_map]
  constructor
  · rintro ⟨⟨key, proposals⟩, member, rfl⟩
    obtain ⟨nonempty, rfl⟩ := mem_entries_grouped.mp member
    exact ⟨nonempty, rfl⟩
  · rintro ⟨nonempty, same⟩
    exact ⟨_, mem_entries_grouped.mpr ⟨nonempty, rfl⟩, same.symm⟩

theorem proposalsFor_ne_nil_iff {topic : Bytes} :
    proposalsFor sha256 (orderedMsgs msgs) topic ≠ [] ↔
      ∃ msg ∈ msgs, ∃ proposal ∈ msg.topics, keyOf sha256 proposal.topic = topic := by
  have sorted : (orderedMsgs msgs).Perm msgs := List.perm_insertionSort _ _
  constructor
  · intro nonempty
    obtain ⟨proposal, member⟩ := List.exists_mem_of_ne_nil _ nonempty
    obtain ⟨inMsgs, same⟩ := List.mem_filter.mp member
    obtain ⟨msg, inOrdered, topicProposal, inTopics, rfl⟩ := mem_proposalsOf.mp inMsgs
    exact ⟨msg, sorted.subset inOrdered, topicProposal, inTopics, of_decide_eq_true same⟩
  · rintro ⟨msg, member, proposal, inTopics, same⟩
    have listed : (proposal.topic, proposal.priorities) ∈ proposalsOf (orderedMsgs msgs) :=
      mem_proposalsOf.mpr ⟨msg, sorted.symm.subset member, proposal, inTopics, rfl⟩
    exact List.ne_nil_of_mem (List.mem_filter.mpr ⟨listed, decide_eq_true same⟩)

/-- An item of the result is the tally of a proposed topic under its hash. -/
theorem topic_of_mem_sortedResults {minRequired : Int} {item : Bytes × PriorityTopicResult}
    (member : item ∈ sortedResults sha256 msgs minRequired) :
    (∃ msg ∈ msgs, ∃ proposal ∈ msg.topics, proposal.topic = item.2.topic) ∧
      keyOf sha256 item.2.topic = item.1 ∧
        item.2 = { topic := item.2.topic, priorities :=
          (topicTally sha256 msgs item.2.topic).scored (minScoreOf minRequired) } := by
  have sorted : (orderedMsgs msgs).Perm msgs := List.perm_insertionSort _ _
  obtain ⟨nonempty, shape⟩ := mem_sortedResults.mp member
  have hashed : keyOf sha256 item.2.topic = item.1 := by
    rw [shape]
    exact keyOf_headD_proposalsFor nonempty
  refine ⟨?_, hashed, ?_⟩
  · have head : (proposalsFor sha256 (orderedMsgs msgs) item.1).headD (.unencodable, []) ∈
        proposalsFor sha256 (orderedMsgs msgs) item.1 := by
      match proposalsFor sha256 (orderedMsgs msgs) item.1, nonempty with
      | first :: _, _ => exact List.mem_cons_self
    obtain ⟨msg, inOrdered, proposal, inTopics, same⟩ :=
      mem_proposalsOf.mp (List.mem_of_mem_filter head)
    refine ⟨msg, sorted.subset inOrdered, proposal, inTopics, ?_⟩
    rw [shape]
    exact congrArg Prod.fst same
  · have priorities : item.2.priorities =
        (tallyOf sha256 (proposalsFor sha256 (orderedMsgs msgs) item.1)).scored
          (minScoreOf minRequired) := by
      rw [shape]
      rfl
    rw [topicTally, hashed, ← priorities]

theorem pairwise_sortedResults (minRequired : Int) :
    (sortedResults sha256 msgs minRequired).Pairwise fun one two => one.1 < two.1 := by
  have total : Std.Total fun one two : Bytes × PriorityTopicResult => one.1 ≤ two.1 :=
    ⟨fun one two => Std.Total.total (r := fun one two : Bytes => one ≤ two) one.1 two.1⟩
  have trans : IsTrans (Bytes × PriorityTopicResult) fun one two => one.1 ≤ two.1 :=
    ⟨fun one two three first second => List.le_trans first second⟩
  have ordered := List.pairwise_insertionSort
    (fun one two : Bytes × PriorityTopicResult => one.1 ≤ two.1)
    ((grouped sha256 (orderedMsgs msgs)).entries.map (resultFor sha256 (minScoreOf minRequired)))
  have keys : ((sortedResults sha256 msgs minRequired).map Prod.fst).Nodup := by
    rw [sortedResults, ((List.perm_insertionSort _ _).map _).nodup_iff, List.map_map]
    exact Dict.keys_nodup _
  refine ordered.imp₂ (fun one two below apart => ?_) (List.pairwise_map.mp keys)
  by_contra notBelow
  exact apart (List.le_antisymm below (List.not_lt.mp notBelow))

/-- Accepted messages whose strings the hash tells apart have the specified result. -/
theorem calculateResult_ranksPriorities (validated : validateMsgs sha256 msgs = .ok ())
    (apart : HashesApart sha256 msgs) (minRequired : Int) :
    ∃ result, calculateResult sha256 msgs minRequired = .ok result ∧
      RanksPriorities sha256 msgs minRequired result := by
  have accepted := (validateMsgs_eq_ok_iff msgs).mp validated
  have order := @pairwise_sortedResults sha256 msgs minRequired
  have hashes : ∀ item ∈ sortedResults sha256 msgs minRequired,
      priorityHash sha256 item.2.topic = .ok item.1 := by
    intro item member
    obtain ⟨⟨msg, inMsgs, proposal, inTopics, same⟩, hashed, -⟩ := topic_of_mem_sortedResults member
    rw [← hashed, ← same]
    exact priorityHash_of_string ((accepted.topics msg inMsgs).strings proposal inTopics)
  refine ⟨_, calculateResult_eq_ok accepted minRequired, ?_⟩
  change RanksPriorities sha256 msgs minRequired
    ⟨msgs, (sortedResults sha256 msgs minRequired).map Prod.snd⟩
  constructor
  · intro topic
    rw [List.map_map, List.mem_map]
    constructor
    · rintro ⟨item, member, rfl⟩
      exact (topic_of_mem_sortedResults member).1
    · rintro ⟨msg, inMsgs, proposal, inTopics, rfl⟩
      have nonempty := proposalsFor_ne_nil_iff.mpr
        ⟨msg, inMsgs, proposal, inTopics, (rfl : keyOf sha256 proposal.topic = _)⟩
      have member : resultFor sha256 (minScoreOf minRequired) (keyOf sha256 proposal.topic,
          proposalsFor sha256 (orderedMsgs msgs) (keyOf sha256 proposal.topic)) ∈
            sortedResults sha256 msgs minRequired := mem_sortedResults.mpr ⟨nonempty, rfl⟩
      obtain ⟨⟨other, otherMember, otherProposal, otherTopics, same⟩, hashed, -⟩ :=
        topic_of_mem_sortedResults member
      refine ⟨_, member, ?_⟩
      apply apart.eq_of_key_eq accepted ?_ (mem_stringsOf_topic inMsgs inTopics) hashed
      exact same ▸ mem_stringsOf_topic otherMember otherTopics
  · rw [List.map_map]
    refine List.pairwise_map.mpr (order.imp_of_mem fun {one two} first second below same => ?_)
    have oneHash := (topic_of_mem_sortedResults first).2.1
    have twoHash := (topic_of_mem_sortedResults second).2.1
    rw [← oneHash, ← twoHash] at below
    exact List.lt_irrefl _ (congrArg (keyOf sha256) same ▸ below)
  · refine List.pairwise_map.mpr (order.imp_of_mem fun {one two} first second below => ?_)
    exact ⟨one.1, two.1, hashes one first, hashes two second, below⟩
  · intro topicResult member
    obtain ⟨item, inSorted, rfl⟩ := List.mem_map.mp member
    obtain ⟨⟨msg, inMsgs, proposal, inTopics, same⟩, -, shape⟩ :=
      topic_of_mem_sortedResults inSorted
    rw [shape]
    exact ranksTopic accepted apart (same ▸ mem_stringsOf_topic inMsgs inTopics) minRequired

/-- Two peers, each with a priority of its own, under SHA-256. -/
theorem calculateResult_ranksPriorities_tie :
    ∃ result, calculateResult Sha256.sha256 [singleMsg "a" "x", singleMsg "b" "y"] 1 = .ok result ∧
      RanksPriorities Sha256.sha256 [singleMsg "a" "x", singleMsg "b" "y"] 1 result := by
  have accepted := @accepted_singles Sha256.sha256 "a" "b" (by decide) "x" "y"
  have keys : ∀ one ∈ stringsOf [singleMsg "a" "x", singleMsg "b" "y"],
      ∀ two ∈ stringsOf [singleMsg "a" "x", singleMsg "b" "y"],
        keyOf Sha256.sha256 one = keyOf Sha256.sha256 two → one = two := by decide +kernel
  refine calculateResult_ranksPriorities ((validateMsgs_eq_ok_iff _).mpr accepted) ?_ 1
  intro one first two second same
  rw [priorityHash_of_string (accepted.string_of_mem first),
    priorityHash_of_string (accepted.string_of_mem second), Except.ok.injEq] at same
  exact keys one first two second same

end DvSpec.Priority
