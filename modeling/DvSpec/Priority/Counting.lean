import DvSpec.Priority.Validation

/-!
# What the counting computes

On an accepted set no loop raises.  The proposals are grouped by the hash of
their topic; a priority scores the sum of the weights left at its positions, and
is ranked once it has been seen.
-/

namespace DvSpec.Priority

open DvSpec.Encoding DvSpec.Library DvSpec.Library.Raising

variable {sha256 : Bytes → Bytes}

/-! ## Grouping -/

/-- The proposals of all messages, in order. -/
def proposalsOf (msgs : List PriorityMsg) : List Proposal :=
  msgs.flatMap fun msg => msg.topics.map fun proposal => (proposal.topic, proposal.priorities)

theorem mem_proposalsOf {msgs : List PriorityMsg} {proposal : Proposal} :
    proposal ∈ proposalsOf msgs ↔
      ∃ msg ∈ msgs, ∃ topic ∈ msg.topics, (topic.topic, topic.priorities) = proposal := by
  simp [proposalsOf]

variable (sha256) in
/-- The proposals under the hash of their topic. -/
def grouped (msgs : List PriorityMsg) : Dict Bytes (List Proposal) :=
  Dict.groupBy (fun proposal => keyOf sha256 proposal.1) (proposalsOf msgs)

theorem proposalsByTopic_eq_ok {msgs : List PriorityMsg}
    (strings : ∀ msg ∈ msgs, ∀ proposal ∈ msg.topics, proposal.topic ≠ .unencodable) :
    proposalsByTopic sha256 msgs = .ok (grouped sha256 msgs) := by
  have topics : ∀ msg ∈ msgs, ∀ collected,
      msg.topics.foldlM (addProposal sha256) collected =
        .ok ((msg.topics.map fun proposal => (proposal.topic, proposal.priorities)).foldl
          (fun dict proposal => dict.set (keyOf sha256 proposal.1)
            ((dict.get? (keyOf sha256 proposal.1)).getD [] ++ [proposal])) collected) := by
    intro msg member collected
    rw [List.foldl_map]
    refine foldlM_eq_ok (fun proposal inMsg state => ?_) collected
    rw [addProposal, priorityHash_of_string (strings msg member proposal inMsg), ok_bind]
  rw [proposalsByTopic, foldlM_eq_ok topics, grouped, Dict.groupBy, proposalsOf,
    List.foldl_flatMap]

/-- The proposals for a topic. -/
def proposalsFor (sha256 : Bytes → Bytes) (msgs : List PriorityMsg) (topic : Bytes) :
    List Proposal :=
  (proposalsOf msgs).filter fun proposal => keyOf sha256 proposal.1 = topic

theorem mem_entries_grouped {msgs : List PriorityMsg} {topic : Bytes} {proposals : List Proposal} :
    (topic, proposals) ∈ (grouped sha256 msgs).entries ↔
      proposals ≠ [] ∧ proposals = proposalsFor sha256 msgs topic := by
  rw [Dict.mem_entries_iff, grouped, Dict.get?_groupBy, proposalsFor]
  split
  · rename_i empty
    rw [empty]
    constructor
    · intro found
      cases found
    · rintro ⟨some_proposal, none⟩
      exact absurd none some_proposal
  · rename_i nonempty
    rw [Option.some.injEq]
    exact ⟨fun found => ⟨found ▸ nonempty, found.symm⟩, fun found => found.2.symm⟩

/-! ## Counting -/

variable (sha256) in
/-- One priority counted at its position. -/
def counted (tally : Tally) (entry : AnyValue × Nat) : Tally :=
  let key := keyOf sha256 entry.1
  { scores := tally.scores.set key (tally.score key + ((countWeight : Int) - entry.2))
    seenOrder := if tally.scores.contains key then tally.seenOrder else tally.seenOrder ++ [key]
    values := tally.values.set key entry.1 }

theorem countPriority_eq_ok (tally : Tally) {entry : AnyValue × Nat}
    (string : entry.1 ≠ .unencodable) :
    countPriority sha256 tally entry = .ok (counted sha256 tally entry) := by
  rw [countPriority, priorityHash_of_string string, ok_bind]
  by_cases seen : tally.scores.contains (keyOf sha256 entry.1) = true
  · simp [counted, seen]
  · have absent : tally.scores.get? (keyOf sha256 entry.1) = none := by
      simpa [Dict.contains] using seen
    simp [counted, seen, Tally.score, absent]

variable (sha256) in
/-- All entries of some proposals counted. -/
def tallyOf (proposals : List Proposal) : Tally :=
  (proposals.flatMap fun proposal => proposal.2.zipIdx).foldl (counted sha256) Tally.empty

theorem countProposals_eq_ok {proposals : List Proposal}
    (strings : ∀ proposal ∈ proposals, ∀ priority ∈ proposal.2, priority ≠ .unencodable) :
    countProposals sha256 proposals = .ok (tallyOf sha256 proposals) := by
  have each : ∀ proposal ∈ proposals, ∀ tally,
      proposal.2.zipIdx.foldlM (countPriority sha256) tally =
        .ok (proposal.2.zipIdx.foldl (counted sha256) tally) := by
    intro proposal member tally
    refine foldlM_eq_ok (fun entry inList state => ?_) tally
    have priority : entry.1 ∈ proposal.2 := List.fst_mem_of_mem_zipIdx inList
    exact countPriority_eq_ok state (strings proposal member _ priority)
  rw [countProposals, foldlM_eq_ok each, tallyOf, List.foldl_flatMap]

/-! ## Scores -/

/-- The positions at which a priority stands in some lists. -/
def positionsIn (sha256 : Bytes → Bytes) (proposals : List Proposal) (priority : Bytes) : List Nat :=
  ((proposals.flatMap fun proposal => proposal.2.zipIdx).filter fun entry =>
    keyOf sha256 entry.1 = priority).map Prod.snd

/-- The weights left at some positions. -/
def weightAt (positions : List Nat) : Int :=
  (positions.map fun position : Nat => (countWeight : Int) - position).sum

/-- What a tally holds after some entries: every key scores the weights left at its
positions, keys are seen in the order of the dictionary, and a value has its key. -/
structure Counts (sha256 : Bytes → Bytes) (tally : Tally) (entries : List (AnyValue × Nat)) :
    Prop where
  score : ∀ key, tally.score key =
    weightAt ((entries.filter fun entry => keyOf sha256 entry.1 = key).map Prod.snd)
  seenOrder : tally.seenOrder = tally.scores.keys
  seen : ∀ key, key ∈ tally.scores.keys ↔ ∃ entry ∈ entries, keyOf sha256 entry.1 = key
  values : ∀ key ∈ tally.scores.keys, ∃ value,
    tally.values.get? key = some value ∧ keyOf sha256 value = key

theorem counts_empty : Counts sha256 Tally.empty [] where
  score _ := rfl
  seenOrder := rfl
  seen key := by simp [Tally.empty, Dict.empty, Dict.keys]
  values key member := by simp [Tally.empty, Dict.empty, Dict.keys] at member

theorem counts_counted {tally : Tally} {entries : List (AnyValue × Nat)}
    (counts : Counts sha256 tally entries) (entry : AnyValue × Nat) :
    Counts sha256 (counted sha256 tally entry) (entries ++ [entry]) where
  score key := by
    have earlier := counts.score key
    by_cases same : key = keyOf sha256 entry.1
    · subst same
      simp [counted, Tally.score, weightAt] at earlier ⊢
      rw [earlier]
    · have different : keyOf sha256 entry.1 ≠ key := fun equal => same equal.symm
      simpa [counted, Tally.score, weightAt, Dict.get?_set, same, different] using earlier
  seenOrder := by
    have present : tally.scores.contains (keyOf sha256 entry.1) = true ↔
        keyOf sha256 entry.1 ∈ tally.scores.keys := by
      rw [Dict.mem_keys_iff, Dict.contains, Option.isSome_iff_exists]
    simp only [counted, Dict.keys_set, counts.seenOrder]
    by_cases old : keyOf sha256 entry.1 ∈ tally.scores.keys
    · rw [if_pos (present.mpr old), if_pos old]
    · rw [if_neg fun found => old (present.mp found), if_neg old]
  seen key := by
    simp only [counted, Dict.mem_keys_set, counts.seen, List.mem_append, List.mem_singleton,
      or_and_right, exists_or, exists_eq_left]
    rw [or_comm, @eq_comm _ key]
  values key member := by
    simp only [counted, Dict.mem_keys_set] at member ⊢
    rw [Dict.get?_set]
    by_cases same : key = keyOf sha256 entry.1
    · exact ⟨entry.1, if_pos same, same.symm⟩
    · rw [if_neg same]
      exact counts.values key (member.resolve_left same)

theorem counts_foldl (entries : List (AnyValue × Nat)) :
    Counts sha256 (entries.foldl (counted sha256) Tally.empty) entries := by
  induction entries using List.reverseRecOn with
  | nil => exact counts_empty
  | append_singleton entries entry ih =>
      rw [List.foldl_append]
      exact counts_counted ih entry

theorem counts_tallyOf (proposals : List Proposal) :
    Counts sha256 (tallyOf sha256 proposals)
      (proposals.flatMap fun proposal => proposal.2.zipIdx) :=
  counts_foldl _

/-! ## The result -/

variable (sha256) in
/-- The result of one topic from its proposals. -/
def resultFor (minScore : Int) (entry : Bytes × List Proposal) : Bytes × PriorityTopicResult :=
  (entry.1, {
    topic := (entry.2.headD (.unencodable, [])).1
    priorities := (tallyOf sha256 entry.2).scored minScore })

variable (sha256) in
/-- The topics of the result of ordered messages. -/
def topicsOf (msgs : List PriorityMsg) (minScore : Int) : List PriorityTopicResult :=
  (((grouped sha256 msgs).entries.map (resultFor sha256 minScore)).insertionSort
    fun one two => one.1 ≤ two.1).map Prod.snd

/-- The score every listed priority exceeds. -/
def minScoreOf (minRequired : Int) : Int := (minRequired - 1) * countWeight

theorem Accepted.ordered {msgs : List PriorityMsg} (accepted : Accepted sha256 msgs) :
    Accepted sha256 (orderedMsgs msgs) :=
  accepted.perm (List.perm_insertionSort _ msgs).symm

theorem Accepted.strings {msgs : List PriorityMsg} (accepted : Accepted sha256 msgs)
    {proposal : Proposal} (member : proposal ∈ proposalsOf msgs) :
    proposal.1 ≠ .unencodable ∧ PrioritiesValid sha256 proposal.2 := by
  obtain ⟨msg, inMsgs, topic, inTopics, rfl⟩ := mem_proposalsOf.mp member
  have topics := accepted.topics msg inMsgs
  exact ⟨topics.strings topic inTopics, topics.priorities topic inTopics⟩

theorem topicResult_eq_ok {msgs : List PriorityMsg} (accepted : Accepted sha256 msgs)
    (minScore : Int) {entry : Bytes × List Proposal}
    (member : entry ∈ (grouped sha256 msgs).entries) :
    topicResult sha256 minScore entry = .ok (resultFor sha256 minScore entry) := by
  obtain ⟨nonempty, proposals⟩ := mem_entries_grouped.mp member
  have strings : ∀ proposal ∈ entry.2, ∀ priority ∈ proposal.2, priority ≠ .unencodable := by
    intro proposal inEntry
    rw [proposals] at inEntry
    exact (accepted.strings (List.mem_of_mem_filter inEntry)).2.strings
  rw [topicResult, countProposals_eq_ok strings, ok_bind]
  match found : entry.2, nonempty with
  | first :: rest, _ => simp only [resultFor, found, List.headD_cons]

/-- Accepted messages have a result. -/
theorem calculateResult_eq_ok {msgs : List PriorityMsg} (accepted : Accepted sha256 msgs)
    (minRequired : Int) :
    calculateResult sha256 msgs minRequired =
      .ok ⟨msgs, topicsOf sha256 (orderedMsgs msgs) (minScoreOf minRequired)⟩ := by
  have topics : ∀ msg ∈ orderedMsgs msgs, ∀ proposal ∈ msg.topics, proposal.topic ≠ .unencodable :=
    fun msg member => (accepted.ordered.topics msg member).strings
  have results := mapM_eq_ok fun entry member =>
    topicResult_eq_ok accepted.ordered (minScoreOf minRequired) member
  rw [calculateResult, (validateMsgs_eq_ok_iff msgs).mpr accepted, ok_bind,
    proposalsByTopic_eq_ok topics, ok_bind]
  exact bind_eq_ok_iff.mpr ⟨_, results, rfl⟩

theorem calculateResult_eq_ok_iff {msgs : List PriorityMsg} {minRequired : Int}
    {result : PriorityResult} :
    calculateResult sha256 msgs minRequired = .ok result ↔
      Accepted sha256 msgs ∧
        result = ⟨msgs, topicsOf sha256 (orderedMsgs msgs) (minScoreOf minRequired)⟩ := by
  constructor
  · intro returned
    obtain ⟨_, validated, -⟩ := bind_eq_ok_iff.mp returned
    have accepted := (validateMsgs_eq_ok_iff msgs).mp validated
    rw [calculateResult_eq_ok accepted, Except.ok.injEq] at returned
    exact ⟨accepted, returned.symm⟩
  · rintro ⟨accepted, rfl⟩
    exact calculateResult_eq_ok accepted minRequired

end DvSpec.Priority
