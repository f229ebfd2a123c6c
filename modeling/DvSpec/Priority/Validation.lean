import DvSpec.Library.Raising
import DvSpec.Priority.Scoring

/-!
# Accepted message sets

The nested loops of the validation accept exactly the sets in which no node can
vote twice: one duty, distinct peers, and within a message distinct topics with
few distinct priorities.  The condition does not depend on the order of the
messages.
-/

namespace DvSpec.Priority

open DvSpec.Encoding DvSpec.Library.Raising

variable (sha256 : Bytes → Bytes)

/-- The hash of a string, and nothing for other values. -/
def keyOf : AnyValue → Bytes
  | .str text => hashProto sha256 (encodeAnyString text)
  | .unencodable => []

/-- The priorities of one proposal are few distinct strings. -/
structure PrioritiesValid (priorities : List AnyValue) : Prop where
  strings : ∀ priority ∈ priorities, priority ≠ .unencodable
  distinct : (priorities.map (keyOf sha256)).Nodup
  few : priorities.length < maxPriorities

/-- The topics of one message are distinct strings with valid priorities. -/
structure TopicsValid (topics : List PriorityTopicProposal) : Prop where
  strings : ∀ proposal ∈ topics, proposal.topic ≠ .unencodable
  distinct : (topics.map fun proposal => keyOf sha256 proposal.topic).Nodup
  priorities : ∀ proposal ∈ topics, PrioritiesValid sha256 proposal.priorities

/-- One duty, distinct peers and valid topics. -/
structure Accepted (msgs : List PriorityMsg) : Prop where
  nonempty : msgs ≠ []
  duty : ∀ one ∈ msgs, ∀ two ∈ msgs, one.duty = two.duty
  peers : (msgs.map PriorityMsg.peerId).Nodup
  topics : ∀ msg ∈ msgs, TopicsValid sha256 msg.topics

variable {sha256}

theorem priorityHash_of_string {value : AnyValue} (string : value ≠ .unencodable) :
    priorityHash sha256 value = .ok (keyOf sha256 value) := by
  cases value with
  | str text => rfl
  | unencodable => exact absurd rfl string

theorem priorityHash_eq_ok_iff {value : AnyValue} {key : Bytes} :
    priorityHash sha256 value = .ok key ↔ value ≠ .unencodable ∧ keyOf sha256 value = key := by
  cases value with
  | str text => simp [priorityHash, keyOf]
  | unencodable => simp [priorityHash]

/-- Keys that avoid one more seen key. -/
theorem forall_notMem_cons_iff {α κ : Type} {key : α → κ} {first : κ} {rest : List α}
    {seen : List κ} :
    (∀ item ∈ rest, key item ∉ first :: seen) ↔
      first ∉ rest.map key ∧ ∀ item ∈ rest, key item ∉ seen := by
  simp only [List.mem_cons, not_or, List.mem_map, not_exists, not_and, forall_and]

theorem validatePriorities_eq_ok_iff (priorities : List AnyValue) (seen : List Bytes) :
    validatePriorities sha256 seen priorities = .ok () ↔
      (∀ priority ∈ priorities, priority ≠ .unencodable) ∧
        (priorities.map (keyOf sha256)).Nodup ∧
          ∀ priority ∈ priorities, keyOf sha256 priority ∉ seen := by
  induction priorities generalizing seen with
  | nil => simp [validatePriorities]
  | cons priority rest ih =>
      rw [validatePriorities, bind_eq_ok_iff, List.forall_mem_cons, List.map_cons, List.nodup_cons,
        List.forall_mem_cons]
      constructor
      · rintro ⟨_, hashed, accepted⟩
        obtain ⟨string, rfl⟩ := priorityHash_eq_ok_iff.mp hashed
        split at accepted
        · cases accepted
        · rename_i new
          obtain ⟨strings, distinct, fresh⟩ := (ih _).mp accepted
          obtain ⟨first, older⟩ := forall_notMem_cons_iff.mp fresh
          exact ⟨⟨string, strings⟩, ⟨first, distinct⟩, new, older⟩
      · rintro ⟨⟨string, strings⟩, ⟨first, distinct⟩, new, older⟩
        refine ⟨_, priorityHash_of_string string, ?_⟩
        rw [if_neg new]
        exact (ih _).mpr ⟨strings, distinct, forall_notMem_cons_iff.mpr ⟨first, older⟩⟩

theorem topicsValid_cons_iff {proposal : PriorityTopicProposal}
    {rest : List PriorityTopicProposal} :
    TopicsValid sha256 (proposal :: rest) ↔
      proposal.topic ≠ .unencodable ∧ PrioritiesValid sha256 proposal.priorities ∧
        keyOf sha256 proposal.topic ∉ rest.map (fun other => keyOf sha256 other.topic) ∧
          TopicsValid sha256 rest := by
  constructor
  · rintro ⟨strings, distinct, priorities⟩
    rw [List.forall_mem_cons] at strings priorities
    rw [List.map_cons, List.nodup_cons] at distinct
    exact ⟨strings.1, priorities.1, distinct.1, strings.2, distinct.2, priorities.2⟩
  · rintro ⟨string, here, first, strings, distinct, priorities⟩
    exact ⟨List.forall_mem_cons.mpr ⟨string, strings⟩, List.nodup_cons.mpr ⟨first, distinct⟩,
      List.forall_mem_cons.mpr ⟨here, priorities⟩⟩

theorem validateTopics_eq_ok_iff (topics : List PriorityTopicProposal) (seen : List Bytes) :
    validateTopics sha256 seen topics = .ok () ↔
      TopicsValid sha256 topics ∧ ∀ proposal ∈ topics, keyOf sha256 proposal.topic ∉ seen := by
  induction topics generalizing seen with
  | nil => exact ⟨fun _ => ⟨⟨by simp, by simp, by simp⟩, by simp⟩, fun _ => rfl⟩
  | cons proposal rest ih =>
      rw [validateTopics, bind_eq_ok_iff, topicsValid_cons_iff, List.forall_mem_cons]
      constructor
      · rintro ⟨_, hashed, accepted⟩
        obtain ⟨string, rfl⟩ := priorityHash_eq_ok_iff.mp hashed
        split at accepted
        · cases accepted
        · rename_i new
          split at accepted
          · cases accepted
          · rename_i few
            obtain ⟨_, priorities, others⟩ := bind_eq_ok_iff.mp accepted
            obtain ⟨strings, distinct, -⟩ := (validatePriorities_eq_ok_iff _ _).mp priorities
            obtain ⟨valid, fresh⟩ := (ih _).mp others
            obtain ⟨first, older⟩ := forall_notMem_cons_iff.mp fresh
            exact ⟨⟨string, ⟨strings, distinct, Nat.lt_of_not_le few⟩, first, valid⟩, new, older⟩
      · rintro ⟨⟨string, here, first, valid⟩, new, older⟩
        refine ⟨_, priorityHash_of_string string, ?_⟩
        rw [if_neg new, if_neg (Nat.not_le.mpr here.few), bind_eq_ok_iff]
        exact ⟨(), (validatePriorities_eq_ok_iff _ _).mpr
          ⟨here.strings, here.distinct, fun _ _ => List.not_mem_nil⟩,
          (ih _).mpr ⟨valid, forall_notMem_cons_iff.mpr ⟨first, older⟩⟩⟩

theorem validateEach_eq_ok_iff (duty : Duty) (msgs : List PriorityMsg) (seen : List String) :
    validateEach sha256 duty seen msgs = .ok () ↔
      (∀ msg ∈ msgs, msg.duty = duty) ∧ (msgs.map PriorityMsg.peerId).Nodup ∧
        (∀ msg ∈ msgs, TopicsValid sha256 msg.topics) ∧ ∀ msg ∈ msgs, msg.peerId ∉ seen := by
  induction msgs generalizing seen with
  | nil => simp [validateEach]
  | cons msg rest ih =>
      rw [validateEach, List.forall_mem_cons, List.map_cons, List.nodup_cons, List.forall_mem_cons,
        List.forall_mem_cons]
      constructor
      · intro accepted
        split at accepted
        · cases accepted
        · rename_i same
          split at accepted
          · cases accepted
          · rename_i new
            obtain ⟨_, topics, others⟩ := bind_eq_ok_iff.mp accepted
            obtain ⟨duties, peers, valid, fresh⟩ := (ih _).mp others
            obtain ⟨first, older⟩ := forall_notMem_cons_iff.mp fresh
            exact ⟨⟨not_not.mp same, duties⟩, ⟨first, peers⟩,
              ⟨((validateTopics_eq_ok_iff _ _).mp topics).1, valid⟩, new, older⟩
      · rintro ⟨⟨same, duties⟩, ⟨first, peers⟩, ⟨topics, valid⟩, new, older⟩
        rw [if_neg (not_not_intro same), if_neg new, bind_eq_ok_iff]
        exact ⟨(), (validateTopics_eq_ok_iff _ _).mpr ⟨topics, fun _ _ => List.not_mem_nil⟩,
          (ih _).mpr ⟨duties, peers, valid, forall_notMem_cons_iff.mpr ⟨first, older⟩⟩⟩

/-- The validation accepts exactly the accepted sets. -/
theorem validateMsgs_eq_ok_iff (msgs : List PriorityMsg) :
    validateMsgs sha256 msgs = .ok () ↔ Accepted sha256 msgs := by
  cases msgs with
  | nil =>
      refine ⟨fun returns => ?_, fun accepted => absurd rfl accepted.nonempty⟩
      cases returns
  | cons first rest =>
      rw [validateMsgs, validateEach_eq_ok_iff]
      constructor
      · rintro ⟨duties, peers, topics, -⟩
        refine ⟨List.cons_ne_nil _ _, fun one inOne two inTwo => ?_, peers, topics⟩
        exact (duties one inOne).trans (duties two inTwo).symm
      · intro accepted
        exact ⟨fun msg member => accepted.duty msg member first List.mem_cons_self, accepted.peers,
          accepted.topics, fun _ _ => List.not_mem_nil⟩

theorem Accepted.perm {msgs others : List PriorityMsg} (accepted : Accepted sha256 msgs)
    (perm : msgs.Perm others) : Accepted sha256 others where
  nonempty := fun empty => accepted.nonempty (List.perm_nil.mp (empty ▸ perm))
  duty := fun one inOne two inTwo =>
    accepted.duty one (perm.mem_iff.mpr inOne) two (perm.mem_iff.mpr inTwo)
  peers := (perm.map PriorityMsg.peerId).nodup_iff.mp accepted.peers
  topics := fun msg member => accepted.topics msg (perm.mem_iff.mpr member)

end DvSpec.Priority
