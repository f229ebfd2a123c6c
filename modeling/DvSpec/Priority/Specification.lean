import DvSpec.Priority.Support
import Mathlib.Algebra.BigOperators.Group.List.Basic
import Mathlib.Algebra.Ring.Int.Defs
import Mathlib.Data.Finset.Card

/-!
# What the result should say

The specification of the result in terms of the messages alone: which topics and
priorities are listed, with which scores and in which order.  As long as the hash
tells the proposed strings apart, the counted positions are those of the
messages.
-/

namespace DvSpec.Priority

open DvSpec.Encoding DvSpec.Library

/-! ## The specification -/

/-- The topics and priorities that occur in some messages. -/
def stringsOf (msgs : List PriorityMsg) : List AnyValue :=
  msgs.flatMap fun msg => msg.topics.flatMap fun proposal => proposal.topic :: proposal.priorities

/-- The hash is injective on the strings that occur. -/
def HashesApart (sha256 : Bytes → Bytes) (msgs : List PriorityMsg) : Prop :=
  ∀ one ∈ stringsOf msgs, ∀ two ∈ stringsOf msgs,
    priorityHash sha256 one = priorityHash sha256 two → one = two

/-- The position a message gives a priority of a topic. -/
def positionOf (msg : PriorityMsg) (topic priority : AnyValue) : Option Nat :=
  (msg.topics.find? fun proposal => proposal.topic = topic).bind fun proposal =>
    proposal.priorities.idxOf? priority

/-- The peers that propose a priority for a topic. -/
def proposers (msgs : List PriorityMsg) (topic priority : AnyValue) : List String :=
  (msgs.filter fun msg => (positionOf msg topic priority).isSome).map PriorityMsg.peerId

/-- The sum over the proposing peers of 1000 less the position. -/
def summedScore (msgs : List PriorityMsg) (topic priority : AnyValue) : Int :=
  ((msgs.filterMap fun msg => positionOf msg topic priority).map
    fun position : Nat => (1000 : Int) - position).sum

/-- The lowest peer that proposes a priority, and the position it gives. -/
structure ProposedFirst (msgs : List PriorityMsg) (topic priority : AnyValue) (peer : String)
    (position : Nat) : Prop where
  proposed : ∃ msg ∈ msgs, msg.peerId = peer ∧ positionOf msg topic priority = some position
  lowest : ∀ other ∈ proposers msgs topic priority, peer ≤ other

/-- The first proposal of one priority comes before that of another, by peer and then by
position. -/
def ProposedBefore (msgs : List PriorityMsg) (topic one two : AnyValue) : Prop :=
  ∃ peer position other otherPosition, ProposedFirst msgs topic one peer position ∧
    ProposedFirst msgs topic two other otherPosition ∧
      (peer < other ∨ peer = other ∧ position < otherPosition)

/-- The result of one topic. -/
structure RanksTopic (msgs : List PriorityMsg) (minRequired : Int)
    (result : PriorityTopicResult) : Prop where
  distinct : (result.priorities.map PriorityScoredResult.priority).Nodup
  scores : ∀ scored ∈ result.priorities,
    scored.score = summedScore msgs result.topic scored.priority
  listed : ∀ priority, priority ∈ result.priorities.map PriorityScoredResult.priority ↔
    proposers msgs result.topic priority ≠ [] ∧
      (minRequired - 1) * 1000 < summedScore msgs result.topic priority
  ordered : result.priorities.Pairwise fun one two => two.score < one.score ∨
    one.score = two.score ∧ ProposedBefore msgs result.topic one.priority two.priority
  supported : ∀ scored ∈ result.priorities,
    minRequired ≤ (proposers msgs result.topic scored.priority).toFinset.card

/-- All topics, each once, in the order of their hashes. -/
structure RanksPriorities (sha256 : Bytes → Bytes) (msgs : List PriorityMsg) (minRequired : Int)
    (result : PriorityResult) : Prop where
  topics : ∀ topic, topic ∈ result.topics.map PriorityTopicResult.topic ↔
    ∃ msg ∈ msgs, ∃ proposal ∈ msg.topics, proposal.topic = topic
  distinct : (result.topics.map PriorityTopicResult.topic).Nodup
  ordered : result.topics.Pairwise fun one two => ∃ lower higher,
    priorityHash sha256 one.topic = .ok lower ∧ priorityHash sha256 two.topic = .ok higher ∧
      lower < higher
  each : ∀ topicResult ∈ result.topics, RanksTopic msgs minRequired topicResult

variable {sha256 : Bytes → Bytes} {msgs : List PriorityMsg}

/-! ## Strings and their keys -/

theorem mem_stringsOf_topic {msg : PriorityMsg} (member : msg ∈ msgs)
    {proposal : PriorityTopicProposal} (inTopics : proposal ∈ msg.topics) :
    proposal.topic ∈ stringsOf msgs :=
  List.mem_flatMap.mpr ⟨msg, member, List.mem_flatMap.mpr ⟨proposal, inTopics, List.mem_cons_self⟩⟩

theorem mem_stringsOf_priority {msg : PriorityMsg} (member : msg ∈ msgs)
    {proposal : PriorityTopicProposal} (inTopics : proposal ∈ msg.topics) {priority : AnyValue}
    (listed : priority ∈ proposal.priorities) : priority ∈ stringsOf msgs :=
  List.mem_flatMap.mpr ⟨msg, member,
    List.mem_flatMap.mpr ⟨proposal, inTopics, List.mem_cons_of_mem _ listed⟩⟩

theorem Accepted.string_of_mem (accepted : Accepted sha256 msgs) {value : AnyValue}
    (occurs : value ∈ stringsOf msgs) : value ≠ .unencodable := by
  obtain ⟨msg, member, inMsg⟩ := List.mem_flatMap.mp occurs
  obtain ⟨proposal, inTopics, here⟩ := List.mem_flatMap.mp inMsg
  have valid := accepted.topics msg member
  rcases List.mem_cons.mp here with rfl | listed
  · exact valid.strings proposal inTopics
  · exact (valid.priorities proposal inTopics).strings value listed

/-- Strings that occur are equal when their keys are. -/
theorem HashesApart.eq_of_key_eq (apart : HashesApart sha256 msgs) (accepted : Accepted sha256 msgs)
    {one two : AnyValue} (first : one ∈ stringsOf msgs) (second : two ∈ stringsOf msgs)
    (same : keyOf sha256 one = keyOf sha256 two) : one = two := by
  apply apart one first two second
  rw [priorityHash_of_string (accepted.string_of_mem first),
    priorityHash_of_string (accepted.string_of_mem second), same]

/-! ## Positions -/

/-- The entries of some messages for a topic: its priorities with their positions. -/
def entriesFor (sha256 : Bytes → Bytes) (msgs : List PriorityMsg) (topic : Bytes) :
    List (AnyValue × Nat) :=
  (proposalsFor sha256 msgs topic).flatMap fun proposal => proposal.2.zipIdx

theorem entriesFor_eq_flatMap (msgs : List PriorityMsg) (topic : Bytes) :
    entriesFor sha256 msgs topic = msgs.flatMap fun msg => entriesFor sha256 [msg] topic := by
  induction msgs with
  | nil => rfl
  | cons msg rest ih =>
      rw [entriesFor, proposalsFor_cons, List.flatMap_append, List.flatMap_cons, ← ih]
      rfl

/-- A message with valid topics has one proposal for a topic, or none. -/
theorem proposalsFor_single {msg : PriorityMsg} (valid : TopicsValid sha256 msg.topics)
    (topic : Bytes) :
    proposalsFor sha256 [msg] topic = [] ∨ ∃ proposal ∈ msg.topics,
      proposalsFor sha256 [msg] topic = [(proposal.topic, proposal.priorities)] := by
  by_cases found : ∃ proposal ∈ msg.topics, keyOf sha256 proposal.topic = topic
  · obtain ⟨proposal, member, rfl⟩ := found
    rw [proposalsFor_singleton, filter_key_eq_singleton valid.distinct member]
    exact Or.inr ⟨proposal, member, rfl⟩
  · refine Or.inl ?_
    rw [proposalsFor_singleton, List.map_eq_nil_iff, List.filter_eq_nil_iff]
    exact fun proposal member same => found ⟨proposal, member, of_decide_eq_true same⟩

theorem mem_entriesFor_single {msg : PriorityMsg} {topic : Bytes} {value : AnyValue}
    {position : Nat} :
    (value, position) ∈ entriesFor sha256 [msg] topic ↔
      ∃ proposal ∈ msg.topics, keyOf sha256 proposal.topic = topic ∧
        proposal.priorities[position]? = some value := by
  simp [entriesFor, proposalsFor, proposalsOf, List.mem_zipIdx_iff_getElem?, and_assoc]

/-- The positions of a message that lists every topic and every priority once. -/
theorem positionOf_eq_some_iff {msg : PriorityMsg} (valid : TopicsValid sha256 msg.topics)
    {topic priority : AnyValue} {position : Nat} :
    positionOf msg topic priority = some position ↔
      ∃ proposal ∈ msg.topics, proposal.topic = topic ∧
        proposal.priorities[position]? = some priority := by
  have index : ∀ proposal ∈ msg.topics, (proposal.priorities.idxOf? priority = some position ↔
      proposal.priorities[position]? = some priority) := by
    intro proposal member
    have distinct := (valid.priorities proposal member).distinct.of_map
    rw [List.idxOf?_eq_some_iff, List.getElem?_eq_some_iff]
    constructor
    · rintro ⟨inside, here, -⟩
      exact ⟨inside, here⟩
    · rintro ⟨inside, here⟩
      refine ⟨inside, here, fun earlier before same => ?_⟩
      have equal := (distinct.getElem_inj_iff).mp (same.trans here.symm)
      exact absurd equal (Nat.ne_of_lt before)
  unfold positionOf
  rw [Option.bind_eq_some_iff]
  constructor
  · rintro ⟨proposal, found, here⟩
    have member := List.mem_of_find?_eq_some found
    have same : proposal.topic = topic := by simpa using List.find?_some found
    exact ⟨proposal, member, same, (index proposal member).mp here⟩
  · rintro ⟨proposal, member, rfl, here⟩
    have found : msg.topics.find? (fun other => other.topic = proposal.topic) = some proposal := by
      cases search : msg.topics.find? (fun other => other.topic = proposal.topic) with
      | none => simpa using List.find?_eq_none.mp search proposal member
      | some other =>
          have same : other.topic = proposal.topic := by simpa using List.find?_some search
          have keys := congrArg (keyOf sha256) same
          rw [List.inj_on_of_nodup_map valid.distinct (List.mem_of_find?_eq_some search) member keys]
    exact ⟨proposal, found, (index proposal member).mpr here⟩

theorem mem_stringsOf_of_positionOf (accepted : Accepted sha256 msgs) {msg : PriorityMsg}
    (member : msg ∈ msgs) {topic priority : AnyValue} {position : Nat}
    (proposed : positionOf msg topic priority = some position) :
    topic ∈ stringsOf msgs ∧ priority ∈ stringsOf msgs := by
  obtain ⟨proposal, inTopics, rfl, here⟩ :=
    (positionOf_eq_some_iff (accepted.topics msg member)).mp proposed
  exact ⟨mem_stringsOf_topic member inTopics,
    mem_stringsOf_priority member inTopics (List.mem_of_getElem? here)⟩

section Apart

variable (accepted : Accepted sha256 msgs) (apart : HashesApart sha256 msgs)

include accepted apart

/-- The entries of one message are its positions. -/
theorem mem_entriesFor_iff {msg : PriorityMsg} (member : msg ∈ msgs) {topic : AnyValue}
    (occurs : topic ∈ stringsOf msgs) {value : AnyValue} {position : Nat} :
    (value, position) ∈ entriesFor sha256 [msg] (keyOf sha256 topic) ↔
      positionOf msg topic value = some position := by
  rw [mem_entriesFor_single, positionOf_eq_some_iff (accepted.topics msg member)]
  constructor
  · rintro ⟨proposal, inTopics, same, here⟩
    have equal := apart.eq_of_key_eq accepted (mem_stringsOf_topic member inTopics) occurs same
    exact ⟨proposal, inTopics, equal, here⟩
  · rintro ⟨proposal, inTopics, rfl, here⟩
    exact ⟨proposal, inTopics, rfl, here⟩

theorem positionsIn_single {msg : PriorityMsg} (member : msg ∈ msgs) {topic priority : AnyValue}
    (topicOccurs : topic ∈ stringsOf msgs) (priorityOccurs : priority ∈ stringsOf msgs) :
    positionsIn sha256 (proposalsFor sha256 [msg] (keyOf sha256 topic)) (keyOf sha256 priority) =
      (positionOf msg topic priority).toList := by
  have few := length_positionsIn_single (accepted.topics msg member) (keyOf sha256 topic)
    (keyOf sha256 priority)
  have same : ∀ position, position ∈ positionsIn sha256
      (proposalsFor sha256 [msg] (keyOf sha256 topic)) (keyOf sha256 priority) ↔
        positionOf msg topic priority = some position := by
    intro position
    rw [positionsIn, List.mem_map]
    constructor
    · rintro ⟨⟨value, _⟩, kept, rfl⟩
      obtain ⟨entry, hashed⟩ := List.mem_filter.mp kept
      have here := (mem_entriesFor_iff accepted apart member topicOccurs).mp entry
      have occurs := (mem_stringsOf_of_positionOf accepted member here).2
      rwa [apart.eq_of_key_eq accepted occurs priorityOccurs (of_decide_eq_true hashed)] at here
    · intro here
      refine ⟨(priority, position), List.mem_filter.mpr ⟨?_, decide_eq_true rfl⟩, rfl⟩
      exact (mem_entriesFor_iff accepted apart member topicOccurs).mpr here
  generalize positionsIn sha256 (proposalsFor sha256 [msg] (keyOf sha256 topic))
    (keyOf sha256 priority) = positions at few same ⊢
  cases positions with
  | nil =>
      cases found : positionOf msg topic priority with
      | none => rfl
      | some position => exact absurd ((same position).mpr found) List.not_mem_nil
  | cons position rest =>
      have alone : rest = [] := by
        rw [List.length_cons] at few
        refine List.eq_nil_of_length_eq_zero ?_
        split at few <;> omega
      rw [(same position).mp List.mem_cons_self, alone]
      rfl

/-- The positions that are counted are those of the messages. -/
theorem positionsIn_eq {part : List PriorityMsg} (within : part ⊆ msgs) {topic priority : AnyValue}
    (topicOccurs : topic ∈ stringsOf msgs) (priorityOccurs : priority ∈ stringsOf msgs) :
    positionsIn sha256 (proposalsFor sha256 part (keyOf sha256 topic)) (keyOf sha256 priority) =
      part.filterMap fun msg => positionOf msg topic priority := by
  induction part with
  | nil => rfl
  | cons msg rest ih =>
      obtain ⟨member, later⟩ := List.cons_subset.mp within
      rw [proposalsFor_cons, positionsIn_append, ih later,
        positionsIn_single accepted apart member topicOccurs priorityOccurs, List.filterMap_cons]
      cases positionOf msg topic priority <;> rfl

/-- The tally of a topic holds the summed scores. -/
theorem score_tallyOf_eq {topic priority : AnyValue} (topicOccurs : topic ∈ stringsOf msgs)
    (priorityOccurs : priority ∈ stringsOf msgs) :
    (tallyOf sha256 (proposalsFor sha256 (orderedMsgs msgs) (keyOf sha256 topic))).score
        (keyOf sha256 priority) = summedScore msgs topic priority := by
  have sorted : (orderedMsgs msgs).Perm msgs := List.perm_insertionSort _ _
  have score := (@counts_tallyOf sha256
    (proposalsFor sha256 (orderedMsgs msgs) (keyOf sha256 topic))).score (keyOf sha256 priority)
  have positions := positionsIn_eq accepted apart sorted.subset topicOccurs priorityOccurs
  rw [positionsIn] at positions
  rw [score, positions]
  exact ((sorted.filterMap _).map _).sum_eq

end Apart

end DvSpec.Priority
