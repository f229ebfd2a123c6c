import DvSpec.Consensus.Crashes

/-!
# How an instance decides

An undecided instance has not recorded a deciding rule for its round, because
such a rule would have decided.  So a COMMIT quorum that is complete when a
COMMIT of its round arrives decides, and so does every justified DECIDED message.
-/

namespace DvSpec.Consensus

open DvSpec.Library

namespace QBFTConsensus

variable [Crypto] {s : QBFTConsensus} {consensusMsg : QBFTConsensusMsg}

/-- The rules that write the decision. -/
def Deciding (rule : UponRule) : Prop := rule = .quorumCommits ∨ rule = .justifiedDecided

/-! ## Recorded rules -/

/-- A triggered rule leaves the records of some round change. -/
theorem dedupRules_uponRule (rule : UponRule) (msg : QBFTMsg) (justification : List QBFTMsg) :
    ∃ r, (s.uponRule rule msg justification).2.round = r ∧
      (s.uponRule rule msg justification).2.dedupRules = (s.changeRound r).dedupRules := by
  have stays : s.dedupRules = (s.changeRound s.round).dedupRules :=
    (dedupRules_changeRound_self s).symm
  cases rule with
  | nothing => exact ⟨s.round, rfl, stays⟩
  | roundTimeout => exact ⟨s.round, rfl, stays⟩
  | unjustQuorumRoundChanges => exact ⟨s.round, rfl, stays⟩
  | quorumRoundChanges => exact ⟨s.round, rfl, stays⟩
  | quorumCommits => exact ⟨msg.round, round_changeRound s _, rfl⟩
  | justifiedDecided => exact ⟨msg.round, round_changeRound s _, rfl⟩
  | justifiedPrePrepare =>
      refine ⟨msg.round, ?_, ?_⟩ <;> cases hashed : msg.valueHash <;> simp [uponRule, hashed]
  | quorumPrepares =>
      refine ⟨s.round, ?_, ?_⟩ <;> cases hashed : msg.valueHash <;>
        simp [uponRule, hashed, ← stays]
  | fPlus1RoundChanges =>
      unfold uponRule uponFPlus1
      dsimp only
      split
      · exact ⟨s.round, rfl, stays⟩
      · split
        · exact ⟨s.round, rfl, stays⟩
        · exact ⟨s.round, rfl, stays⟩
        · rename_i rmin _
          exact ⟨rmin, round_changeRound s _, rfl⟩

/-- A message leaves round and records unchanged or executes a triggered rule. -/
theorem handleMessage_records (nodes : 0 < s.d.nodes) (undecided : s.qCommit = []) :
    ((s.handleMessage consensusMsg).2.round = s.round ∧
        (s.handleMessage consensusMsg).2.dedupRules = s.dedupRules) ∨
      ∃ rule justification, s.Fires consensusMsg rule justification ∧
        (s.received consensusMsg).classify consensusMsg = .ok (rule, justification) ∧
        s.handleMessage consensusMsg =
          (s.marked consensusMsg rule).uponRule rule consensusMsg.msg justification := by
  by_cases accepts : s.Accepts consensusMsg
  · obtain ⟨rule, justification, result⟩ :=
      @classify_returns (s.received consensusMsg) consensusMsg nodes
    by_cases quiet : rule = .nothing ∨ s.dedupRules.contains (rule, s.round) = true
    · rw [handleMessage_of_quiet accepts result quiet]
      exact Or.inl ⟨rfl, rfl⟩
    · obtain ⟨some, fresh⟩ := not_or.mp quiet
      have unrecorded := Bool.eq_false_of_not_eq_true fresh
      exact Or.inr ⟨rule, justification,
        ⟨accepts, classified_of_classify some result, unrecorded⟩, result,
        handleMessage_of_classify accepts result some unrecorded⟩
  · have stored : (s.storeValues consensusMsg.values).qCommit = [] := undecided
    left
    unfold handleMessage
    split
    · exact ⟨rfl, rfl⟩
    · rename_i limits
      dsimp only
      split
      · exact ⟨rfl, rfl⟩
      · rename_i duty
        rw [stored]
        dsimp only
        split
        · exact ⟨rfl, rfl⟩
        · exact ⟨rfl, rfl⟩
        · rename_i justified
          exact absurd ⟨limits, not_not.mp duty, undecided, justified⟩ accepts

/-- No deciding rule is recorded for the round of an undecided instance. -/
def DecidersFresh (s : QBFTConsensus) : Prop :=
  s.qCommit = [] → ∀ rule, Deciding rule → s.dedupRules.contains (rule, s.round) = false

omit [Crypto] in
theorem decidersFresh_changeRound {rule : UponRule} {r : Nat}
    (fresh : s.dedupRules.contains (rule, s.round) = false) :
    (s.changeRound r).dedupRules.contains (rule, r) = false := by
  by_cases same : r = s.round
  · rw [same, dedupRules_changeRound_self]
    exact fresh
  · rw [dedupRules_changeRound_ne same]
    rfl

theorem DecidersFresh.handleMessage (nodes : 0 < s.d.nodes) (fresh : s.DecidersFresh) :
    (s.handleMessage consensusMsg).2.DecidersFresh := by
  intro undecided rule deciding
  have before := (s.handleMessage_effect consensusMsg).undecided undecided
  have unrecorded := fresh before rule deciding
  rcases handleMessage_records nodes before with ⟨round, records⟩ | ⟨fired, _, fires, -, result⟩
  · rw [round, records]
    exact unrecorded
  · have other : rule ≠ fired := by
      rintro rfl
      have some_justification := fires.ne_nil nodes deciding
      apply some_justification
      rw [result] at undecided
      rcases deciding with rfl | rfl
      · exact undecided
      · exact undecided
    obtain ⟨r, round, records⟩ := @dedupRules_uponRule _ (s.marked consensusMsg fired) fired
      consensusMsg.msg _
    rw [result, round, records]
    apply decidersFresh_changeRound
    rw [dedupRules_marked, round_marked, Dict.contains_set, unrecorded]
    simp [other]

theorem DecidersFresh.step (nodes : 0 < s.d.nodes) (fresh : s.DecidersFresh) (event : Event) :
    (s.step event).2.DecidersFresh := by
  cases event with
  | receive consensusMsg => exact fresh.handleMessage nodes
  | timeout =>
      intro undecided rule deciding
      have before := (s.step_effect .timeout).undecided undecided
      rw [step_timeout before, round_changeRound]
      exact decidersFresh_changeRound (fresh before rule deciding)

theorem decidersFresh_final {d : Definition} (nodes : 0 < d.nodes) (t : Transport) (duty : Duty)
    (peer : Nat) (proposalValue : Bytes) (events : List Event) :
    (Machine.final QBFTConsensus.step (new d t duty peer proposalValue) events).DecidersFresh := by
  have both : 0 < (Machine.final QBFTConsensus.step (new d t duty peer proposalValue)
        events).d.nodes ∧
      (Machine.final QBFTConsensus.step (new d t duty peer proposalValue)
        events).DecidersFresh :=
    Machine.final_invariant (C := fun _ _ => True)
      (I := fun s : QBFTConsensus => 0 < s.d.nodes ∧ s.DecidersFresh)
      (fun state event holds _ => ⟨(state.step_sameConfig event).d ▸ holds.1,
        holds.2.step holds.1 event⟩)
      ⟨nodes, fun _ _ _ => rfl⟩ fun _ _ => trivial
  exact both.2

/-! ## Deciding -/

/-- The decision that a message writes. -/
inductive Writes (s : QBFTConsensus) (consensusMsg : QBFTConsensusMsg)
    (qCommit : List QBFTMsg) : Prop where
  /-- The matching COMMITs of a quorum. -/
  | commits (type : consensusMsg.msg.type = .commit)
      (current : consensusMsg.msg.round = s.round)
      (tally : qCommit = votesFor .commit s.round consensusMsg.msg.valueHash
        (s.received consensusMsg).allMsg)
      (quorum : s.d.quorum ≤ qCommit.length)
  /-- The whole justification of a DECIDED message. -/
  | adopts (type : consensusMsg.msg.type = .decided)
      (justification : qCommit = consensusMsg.justification)

/-- A deciding message is for the round of the decision. -/
theorem writes_of_decides (undecided : s.qCommit = [])
    (decides : (s.handleMessage consensusMsg).2.qCommit ≠ []) :
    s.Accepts consensusMsg ∧
      (s.handleMessage consensusMsg).2.round = consensusMsg.msg.round ∧
      s.Writes consensusMsg (s.handleMessage consensusMsg).2.qCommit := by
  have effect := s.handleMessage_effect consensusMsg
  generalize s.handleMessage consensusMsg = outcome at effect decides
  cases effect with
  | idle => exact absurd undecided decides
  | resent => exact absurd undecided decides
  | kept => exact absurd undecided decides
  | noted => exact absurd undecided decides
  | prePrepared => exact absurd undecided (by simpa using decides)
  | prepared => exact absurd undecided decides
  | jumped => exact absurd undecided (by simpa using decides)
  | proposed => exact absurd undecided decides
  | committed fires =>
      obtain ⟨type, current, tally, quorum⟩ := fires.classified
      exact ⟨fires.toAccepts, current.symm, .commits type current tally quorum⟩
  | adopted fires =>
      exact ⟨fires.toAccepts, round_changeRound _ _, .adopts fires.classified.1 rfl⟩

/-- An accepted DECIDED message is adopted. -/
theorem qCommit_of_decided (fresh : s.DecidersFresh) (accepts : s.Accepts consensusMsg)
    (type : consensusMsg.msg.type = .decided) :
    (s.handleMessage consensusMsg).2.qCommit = consensusMsg.justification := by
  have classified : (s.received consensusMsg).classify consensusMsg =
      .ok (.justifiedDecided, consensusMsg.justification) := by
    rw [classify, type]
  rw [handleMessage_of_classify accepts classified (by decide)
    (fresh accepts.undecided _ (Or.inr rfl))]
  rfl

end QBFTConsensus

end DvSpec.Consensus
