import DvSpec.Crypto.Sha256
import DvSpec.Priority.Counting

/-!
# The result does not depend on the order of the messages

Accepted messages come from distinct peers, so sorting them by peer leaves one
order, and everything after the sort is a function of it.
-/

namespace DvSpec.Priority

variable {sha256 : Bytes → Bytes}

/-- Messages of distinct peers have one order. -/
theorem orderedMsgs_eq_of_perm {msgs others : List PriorityMsg} (perm : msgs.Perm others)
    (distinct : (msgs.map PriorityMsg.peerId).Nodup) : orderedMsgs msgs = orderedMsgs others := by
  have total : Std.Total fun one two : PriorityMsg => one.peerId ≤ two.peerId :=
    ⟨fun one two => le_total one.peerId two.peerId⟩
  have trans : IsTrans PriorityMsg fun one two => one.peerId ≤ two.peerId :=
    ⟨fun _ _ _ first second => le_trans first second⟩
  have sorted := (List.perm_insertionSort (fun one two => one.peerId ≤ two.peerId) msgs).trans
    (perm.trans (List.perm_insertionSort (fun one two => one.peerId ≤ two.peerId) others).symm)
  refine sorted.eq_of_pairwise (fun one two inOne inTwo below above => ?_)
    (List.pairwise_insertionSort _ _) (List.pairwise_insertionSort _ _)
  have oneMember := (List.mem_insertionSort _).mp inOne
  have twoMember := perm.mem_iff.mpr ((List.mem_insertionSort _).mp inTwo)
  exact List.inj_on_of_nodup_map distinct oneMember twoMember (le_antisymm below above)

/-- Whatever the order of the messages, all or none are accepted, and the topics of the
results are the same. -/
theorem calculateResult_order_independent {msgs others : List PriorityMsg}
    (perm : msgs.Perm others) (minRequired : Int) :
    ((∃ result, calculateResult sha256 msgs minRequired = .ok result) ↔
        ∃ result, calculateResult sha256 others minRequired = .ok result) ∧
      ∀ one two, calculateResult sha256 msgs minRequired = .ok one →
        calculateResult sha256 others minRequired = .ok two → one.topics = two.topics := by
  simp only [calculateResult_eq_ok_iff, exists_and_left, exists_eq, and_true]
  refine ⟨⟨fun accepted => accepted.perm perm, fun accepted => accepted.perm perm.symm⟩, ?_⟩
  rintro _ _ ⟨accepted, rfl⟩ ⟨-, rfl⟩
  rw [orderedMsgs_eq_of_perm perm accepted.peers]

/-- A message with one priority for one topic. -/
def singleMsg (peerId priority : String) : PriorityMsg where
  duty := { slot := 1, type := .infoSync }
  topics := [{ topic := .str "version", priorities := [.str priority] }]
  peerId := peerId
  signature := []

theorem accepted_singles {first second : String} (different : first ≠ second)
    (one two : String) : Accepted sha256 [singleMsg first one, singleMsg second two] where
  nonempty := List.cons_ne_nil _ _
  duty := by simp [singleMsg]
  peers := by simp [singleMsg, different]
  topics := by
    intro msg member
    have single : ∀ text : String, PrioritiesValid sha256 [.str text] := fun text =>
      ⟨by simp, List.nodup_singleton _, (by decide : 1 < maxPriorities)⟩
    rcases List.mem_pair.mp member with rfl | rfl
    · exact ⟨by simp [singleMsg], List.nodup_singleton _, List.forall_mem_singleton.mpr (single one)⟩
    · exact ⟨by simp [singleMsg], List.nodup_singleton _, List.forall_mem_singleton.mpr (single two)⟩

/-- A tie between the priorities of two peers is broken alike in both orders. -/
theorem calculateResult_order_independent_tie :
    ∃ one two, calculateResult Sha256.sha256 [singleMsg "a" "x", singleMsg "b" "y"] 1 = .ok one ∧
      calculateResult Sha256.sha256 [singleMsg "b" "y", singleMsg "a" "x"] 1 = .ok two ∧
        one.topics = two.topics := by
  have accepted := @accepted_singles Sha256.sha256 "a" "b" (by decide) "x" "y"
  have swapped := @accepted_singles Sha256.sha256 "b" "a" (by decide) "y" "x"
  have same := @calculateResult_order_independent Sha256.sha256 _ _
    (List.Perm.swap (singleMsg "b" "y") (singleMsg "a" "x") []) 1
  exact ⟨_, _, calculateResult_eq_ok accepted 1, calculateResult_eq_ok swapped 1,
    same.2 _ _ (calculateResult_eq_ok accepted 1) (calculateResult_eq_ok swapped 1)⟩

end DvSpec.Priority
