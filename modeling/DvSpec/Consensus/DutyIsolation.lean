import DvSpec.Consensus.Progress

/-!
# Votes of other duties

The duty of a main message is checked before it is buffered; the duties of its
justification are not.  Votes of another duty reach the tallies exactly through
the justifications of accepted messages.
-/

namespace DvSpec.Consensus

open DvSpec.Library

namespace QBFTConsensus

variable [Crypto] {s : QBFTConsensus} {consensusMsg : QBFTConsensusMsg}

/-! ## Accepted messages are buffered -/

theorem buffer_uponRule (rule : UponRule) (msg : QBFTMsg) (justification : List QBFTMsg) :
    (s.uponRule rule msg justification).2.buffer = s.buffer := by
  cases rule with
  | nothing => rfl
  | roundTimeout => rfl
  | unjustQuorumRoundChanges => rfl
  | quorumRoundChanges => rfl
  | quorumCommits => simp [uponRule]
  | justifiedDecided => simp [uponRule]
  | justifiedPrePrepare => cases hashed : msg.valueHash <;> simp [uponRule, hashed]
  | quorumPrepares => cases hashed : msg.valueHash <;> simp [uponRule, hashed]
  | fPlus1RoundChanges =>
      unfold uponRule uponFPlus1
      dsimp only
      split
      · rfl
      · split <;> simp

theorem buffer_handleMessage (accepts : s.Accepts consensusMsg) :
    (s.handleMessage consensusMsg).2.buffer = (s.received consensusMsg).buffer := by
  rw [handleMessage_of_accepts accepts]
  unfold react
  dsimp only
  split
  · rfl
  · split
    · rfl
    · split
      · rfl
      · exact buffer_uponRule _ _ _

/-! ## Isolation of a duty -/

/-- Every vote that can count here was cast for the duty of the instance. -/
structure DutyIsolated (s : QBFTConsensus) : Prop where
  buffer : ∀ j ∈ s.allMsg, j.duty = s.duty
  qCommit : ∀ j ∈ s.qCommit, j.duty = s.duty
  preparedJustification : ∀ j ∈ s.preparedJustification, j.duty = s.duty

/-- An accepted message brings only votes of the own duty. -/
def BringsOwnDuty (s : QBFTConsensus) (event : Event) : Prop :=
  ∀ consensusMsg, event = .receive consensusMsg → s.Accepts consensusMsg →
    ∀ j ∈ consensusMsg.justification, j.duty = s.duty

theorem received_ownDuty (isolated : s.DutyIsolated) (accepts : s.Accepts consensusMsg)
    (own : ∀ j ∈ consensusMsg.justification, j.duty = s.duty) :
    ∀ j ∈ (s.received consensusMsg).allMsg, j.duty = s.duty := by
  intro j member
  rcases mem_allMsg_bufferMessage.mp member with old | new
  · exact isolated.buffer j old
  · rcases List.mem_cons.mp new with rfl | inside
    · exact accepts.duty
    · exact own j inside

theorem Effect.dutyIsolated {event : Event} {outcome : Outcome}
    (effect : s.Effect event outcome) (isolated : s.DutyIsolated)
    (own : s.BringsOwnDuty event) : outcome.2.DutyIsolated := by
  have duty := effect.sameConfig.duty
  constructor
  · rw [duty]
    rcases effect.buffer with same | ⟨consensusMsg, rfl, accepts, same⟩
    · rw [allMsg_congr same]
      exact isolated.buffer
    · rw [allMsg_congr same]
      exact received_ownDuty isolated accepts (own consensusMsg rfl accepts)
  · rw [duty]
    rcases effect.qCommit with same | ⟨consensusMsg, rule, rfl, deciding, fires⟩
    · rw [same]
      exact isolated.qCommit
    · have brought := own consensusMsg rfl fires.toAccepts
      rcases deciding with rfl | rfl
      · obtain ⟨-, -, chosen, -⟩ := fires.classified
        rw [chosen]
        exact fun j member =>
          received_ownDuty isolated fires.toAccepts brought j (mem_votesFor.mp member).1
      · rw [fires.classified.2]
        exact brought
  · rw [duty]
    rcases effect.preparedState with ⟨-, -, same⟩ | ⟨consensusMsg, rfl, fires, -⟩
    · rw [same]
      exact isolated.preparedJustification
    · obtain ⟨-, -, chosen, -⟩ := fires.classified
      rw [chosen]
      exact fun j member => received_ownDuty isolated fires.toAccepts
        (own consensusMsg rfl fires.toAccepts) j (mem_votesFor.mp member).1

theorem dutyIsolated_new (d : Definition) (t : Transport) (duty : Duty) (peer : Nat)
    (proposalValue : Bytes) : (new d t duty peer proposalValue).DutyIsolated := by
  constructor <;> simp [new, allMsg, flatten, Dict.values, Dict.empty]

/-- Every vote in every state of a run is for the own duty exactly when every accepted
message brings only such votes. -/
theorem run_dutyIsolated_iff (d : Definition) (t : Transport) (duty : Duty) (peer : Nat)
    (proposalValue : Bytes) (events : List Event) :
    Machine.Always step DutyIsolated (new d t duty peer proposalValue) events ↔
      Machine.Along step BringsOwnDuty (new d t duty peer proposalValue) events := by
  constructor
  · rintro always ⟨s, event⟩ member consensusMsg rfl accepts j inside
    have isolated := (always.along _ member).2
    have same := step_sameConfig s (.receive consensusMsg)
    rw [← same.duty]
    apply isolated.buffer
    change j ∈ (s.handleMessage consensusMsg).2.allMsg
    rw [allMsg_congr (buffer_handleMessage accepts)]
    exact mem_allMsg_bufferMessage.mpr (Or.inr (List.mem_cons_of_mem _ inside))
  · intro own
    exact Machine.always_invariant
      (fun state event isolated brings => (state.step_effect event).dutyIsolated isolated brings)
      (dutyIsolated_new d t duty peer proposalValue) own

/-- A DECIDED message of peer 3 that replays the COMMITs of three peers for another slot. -/
def replayedDecision : QBFTConsensusMsg where
  msg := FourPeers.vote .decided 3 1 9
  justification := [0, 1, 2].map fun peerIdx =>
    { FourPeers.vote .commit peerIdx 1 9 with duty := { FourPeers.attesterDuty with slot := 5 } }

omit [Crypto] in
/-- An instance decides on COMMITs that were cast for another duty. -/
theorem replayedDecision_not_isolated :
    letI := constantCrypto
    ¬ Machine.Always step DutyIsolated (FourPeers.fresh 0) [.receive replayedDecision] := by
  rintro ⟨-, isolated⟩
  have foreign := isolated.qCommit (replayedDecision.justification.get ⟨0, by decide⟩)
    (by decide +kernel)
  exact absurd foreign (by decide +kernel)

end QBFTConsensus

end DvSpec.Consensus
