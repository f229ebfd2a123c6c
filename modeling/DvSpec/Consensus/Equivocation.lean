import DvSpec.Consensus.Justification
import DvSpec.Consensus.VoteRounds
import Mathlib.Data.List.Pairwise

/-!
# Two PREPAREs for one round

A justified PRE-PREPARE is recorded under the round in which it arrives, and the
record is wiped when it moves the instance to a later round.  A second PRE-PREPARE
of that round is then taken up as well; there is no other way to send PREPAREs
with different values for one round.
-/

namespace DvSpec.Consensus

open DvSpec.Library

namespace QBFTConsensus

variable [Crypto]

/-! ## Taking up a proposal -/

/-- An event takes up a PRE-PREPARE: the message is accepted, its round is not past and
the rule is not recorded for the current round. -/
def TakesUp (point : QBFTConsensus × Event) (round : Nat) (valueHash : Bytes) : Prop :=
  ∃ consensusMsg, point.2 = .receive consensusMsg ∧ point.1.Accepts consensusMsg ∧
    consensusMsg.msg.type = .prePrepare ∧ consensusMsg.msg.round = round ∧
    consensusMsg.msg.valueHash = some valueHash ∧ point.1.round ≤ round ∧
    point.1.dedupRules.contains (.justifiedPrePrepare, point.1.round) = false

variable {point : QBFTConsensus × Event} {round : Nat} {valueHash : Bytes}

omit [Crypto] in
theorem TakesUp.undecided (takes : TakesUp point round valueHash) : point.1.qCommit = [] := by
  obtain ⟨consensusMsg, -, accepts, -⟩ := takes
  exact accepts.undecided

omit [Crypto] in
theorem TakesUp.round_le (takes : TakesUp point round valueHash) : point.1.round ≤ round := by
  obtain ⟨consensusMsg, -, -, -, -, -, notPast, -⟩ := takes
  exact notPast

omit [Crypto] in
theorem TakesUp.fresh (takes : TakesUp point round valueHash) :
    point.1.dedupRules.contains (.justifiedPrePrepare, point.1.round) = false := by
  obtain ⟨consensusMsg, -, -, -, -, -, -, fresh⟩ := takes
  exact fresh

omit [Crypto] in
theorem TakesUp.nodes (takes : TakesUp point round valueHash) : 0 < point.1.d.nodes := by
  obtain ⟨consensusMsg, -, accepts, type, -⟩ := takes
  have justified := accepts.justified
  rw [isJustified_prePrepare type, isJustifiedPrePrepare_iff] at justified
  exact justified.2.1

/-- Taking up a proposal moves to its round and answers with a PREPARE. -/
theorem TakesUp.step (takes : TakesUp point round valueHash) :
    ∃ consensusMsg, point.1.step point.2 =
      ((point.1.storeValues consensusMsg.values).t.broadcastMessage .prepare point.1.duty
          point.1.peer round valueHash,
        (point.1.marked consensusMsg .justifiedPrePrepare).changeRound round) ∧
      valueHash.length = 32 := by
  obtain ⟨s, event⟩ := point
  obtain ⟨consensusMsg, rfl, accepts, type, rfl, hashed, notPast, fresh⟩ := takes
  have result : (s.received consensusMsg).classify consensusMsg =
      .ok (.justifiedPrePrepare, []) := by
    simp [classify, type, Nat.not_lt.mpr notPast]
  have executed := handleMessage_of_classify accepts result (by decide) fresh
  refine ⟨consensusMsg, ?_, consensusMsg.msg.length_valueHash valueHash hashed⟩
  change s.handleMessage consensusMsg = _
  rw [executed]
  simp [uponRule, hashed]

/-- A sent PREPARE answers a proposal that is taken up. -/
theorem takesUp_of_mem_sentAt {copy : QBFTConsensusMsg} (member : copy ∈ sentAt point)
    (type : copy.msg.type = .prepare) :
    ∃ valueHash, TakesUp point copy.msg.round valueHash ∧
      copy.msg.valueHash = some valueHash := by
  obtain ⟨consensusMsg, valueHash, received, fires, known, built, -⟩ :=
    (sends_of_mem_sentAt member).of_prepare type
  obtain ⟨proposal, notPast, -⟩ := fires.classified
  refine ⟨valueHash, ⟨consensusMsg, received, fires.toAccepts, proposal, ?_, known, ?_, ?_⟩,
    built.valueHash_eq⟩
  · exact built.round_eq.symm
  · rw [built.round_eq]
    exact notPast
  · exact fires.fresh

/-- With peers and a usable secret, a proposal that is taken up is answered. -/
theorem TakesUp.sent (takes : TakesUp point round valueHash) (peers : point.1.t.numPeers ≠ 0)
    (secret : point.1.t.privateKey.length = 32) :
    ∃ copy ∈ sentAt point, copy.msg.type = .prepare ∧ copy.msg.round = round ∧
      copy.msg.valueHash = some valueHash := by
  have positive : 1 ≤ round := by
    obtain ⟨consensusMsg, -, -, -, rfl, -⟩ := takes
    exact consensusMsg.msg.round_pos
  obtain ⟨consensusMsg, step, sized⟩ := takes.step
  obtain ⟨copy, success⟩ := Transport.broadcastMessage_succeeds
    (t := (point.1.storeValues consensusMsg.values).t) secret .prepare point.1.duty point.1.peer
    [] positive sized
  have member : copy ∈ List.replicate
      (point.1.storeValues consensusMsg.values).t.numPeers copy :=
    List.mem_replicate.mpr ⟨peers, rfl⟩
  have built := (Transport.mem_broadcastMessage success member).1
  refine ⟨copy, ?_, built.type_eq, built.round_eq, built.valueHash_eq⟩
  rw [sentAt, step, success]
  exact member

/-! ## The second proposal of a round -/

/-- Two proposals of one round are only taken up when the first one arrived in an
earlier round and the second one in the round itself. -/
theorem takesUp_pairwise {start : QBFTConsensus} (sound : start.Sound) (events : List Event) :
    (Machine.trace step start events).Pairwise fun earlier later =>
      ∀ round first second, TakesUp earlier round first → TakesUp later round second →
        earlier.1.round < round ∧ later.1.round = round := by
  refine Machine.trace_pairwise (C := fun _ _ => True) (I := Sound)
    (A := fun point s => ∀ round first, TakesUp point round first →
      s.qCommit ≠ [] ∨ round ≤ s.round ∧
        (point.1.round = round → s.Spent .justifiedPrePrepare round))
    (fun _ event holds _ => holds.step event) ?_ ?_ ?_ sound fun _ _ => trivial
  · intro s event _ _ round first takes
    obtain ⟨consensusMsg, step, -⟩ := takes.step
    right
    rw [step]
    refine ⟨by simp, fun here => ?_⟩
    have kept := dedupRules_changeRound_self (s.marked consensusMsg .justifiedPrePrepare)
    rw [round_marked, show s.round = round from here] at kept
    refine Or.inr (Or.inr ⟨by simp, ?_⟩)
    rw [kept, dedupRules_marked, round_changeRound, show s.round = round from here,
      Dict.contains_set]
    simp
  · intro point s event holds _ since round first takes
    have effect := s.step_effect event
    by_cases undecided : (s.step event).2.qCommit = []
    · have before := effect.undecided undecided
      obtain ⟨reached, spent⟩ := (since round first takes).resolve_left (not_not_intro before)
      refine Or.inr ⟨?_, fun here => effect.spent holds.nodes (spent here)⟩
      rcases effect.moves holds.nodes undecided with later | ⟨same, -⟩
      · exact Nat.le_trans reached (Nat.le_of_lt later)
      · exact Nat.le_trans reached (Nat.le_of_eq same)
    · exact Or.inl undecided
  · intro point s event _ _ since round first second takes again
    obtain ⟨reached, spent⟩ :=
      (since round first takes).resolve_left (not_not_intro again.undecided)
    have current : s.round = round := Nat.le_antisymm again.round_le reached
    refine ⟨Nat.lt_of_le_of_ne takes.round_le fun here => ?_, current⟩
    rcases spent here with decided | past | ⟨-, recorded⟩
    · exact decided again.undecided
    · exact absurd current (Nat.ne_of_gt past)
    · exact absurd recorded (Bool.eq_false_iff.mp again.fresh)

/-! ## One value per round -/

/-- The PREPAREs sent by two events for one round carry the same value. -/
def SamePrepares (first second : QBFTConsensus × Event) : Prop :=
  ∀ x ∈ sentAt first, ∀ y ∈ sentAt second, x.msg.type = .prepare → y.msg.type = .prepare →
    x.msg.round = y.msg.round → x.msg.valueHash = y.msg.valueHash

/-- All PREPAREs of a run for one round carry the same value. -/
def PreparesAgree (points : List (QBFTConsensus × Event)) : Prop :=
  ∀ first ∈ points, ∀ second ∈ points, SamePrepares first second

/-- A proposal that moved the instance to its round is not followed by another value
proposed in that round. -/
def NoSecondProposal (earlier later : QBFTConsensus × Event) : Prop :=
  ∀ round first second, TakesUp earlier round first → earlier.1.round < round →
    TakesUp later round second → later.1.round = round → first = second

instance : Std.Symm SamePrepares where
  symm _ _ same x xMember y yMember xType yType round :=
    (same y yMember x xMember yType xType round.symm).symm

theorem trace_sameConfig (s : QBFTConsensus) (events : List Event) :
    ∀ point ∈ Machine.trace step s events, SameConfig s point.1 :=
  Machine.trace_invariant (C := fun _ _ => True)
    (fun state event same _ => same.trans (state.step_sameConfig event))
    (SameConfig.refl s) fun _ _ => trivial

theorem preparesAgree_of_noSecondProposal {start : QBFTConsensus} {events : List Event}
    (sound : 0 < start.d.nodes → start.Sound)
    (single : (Machine.trace step start events).Pairwise NoSecondProposal) :
    PreparesAgree (Machine.trace step start events) := by
  have config := trace_sameConfig start events
  refine List.Pairwise.forall_of_forall ?_ ?_
  · intro point _ x xMember y yMember _ _ _
    have same := (point.1.step_effect point.2).one_broadcast xMember yMember
    rw [same]
  · rcases Nat.eq_zero_or_pos start.d.nodes with none | nodes
    · apply List.pairwise_of_forall_mem_list
      intro point member other _ x xMember y _ xType
      obtain ⟨valueHash, takes, -⟩ := takesUp_of_mem_sentAt xMember xType
      have nodes := takes.nodes
      rw [(config point member).d, none] at nodes
      exact absurd nodes (Nat.lt_irrefl _)
    · refine ((takesUp_pairwise (sound nodes) events).and single).imp ?_
      rintro earlier later ⟨moved, unique⟩ x xMember y yMember xType yType round
      obtain ⟨v, takes, xHash⟩ := takesUp_of_mem_sentAt xMember xType
      obtain ⟨w, again, yHash⟩ := takesUp_of_mem_sentAt yMember yType
      rw [← round] at again
      obtain ⟨before, here⟩ := moved _ v w takes again
      rw [xHash, yHash, unique _ v w takes before again here]

/-- The PREPAREs of a run agree exactly when nothing can be sent or no proposal that
moved the instance to its round is followed by a different one there. -/
theorem run_preparesAgree_iff (d : Definition) (t : Transport) (duty : Duty) (peer : Nat)
    (proposalValue : Bytes) (events : List Event) :
    PreparesAgree (Machine.trace step (new d t duty peer proposalValue) events) ↔
      t.numPeers = 0 ∨ t.privateKey.length ≠ 32 ∨
        (Machine.trace step (new d t duty peer proposalValue) events).Pairwise
          NoSecondProposal := by
  have config := trace_sameConfig (new d t duty peer proposalValue) events
  constructor
  · intro agree
    by_cases peers : t.numPeers = 0
    · exact Or.inl peers
    · by_cases secret : t.privateKey.length = 32
      · refine Or.inr (Or.inr (List.pairwise_of_forall_mem_list ?_))
        intro earlier earlierMember later laterMember round v w takes _ again _
        have sends : ∀ point ∈ Machine.trace step (new d t duty peer proposalValue) events,
            point.1.t.numPeers ≠ 0 ∧ point.1.t.privateKey.length = 32 := by
          intro point member
          rw [(config point member).numPeers, (config point member).privateKey]
          exact ⟨peers, secret⟩
        obtain ⟨x, xMember, xType, xRound, xHash⟩ :=
          takes.sent (sends _ earlierMember).1 (sends _ earlierMember).2
        obtain ⟨y, yMember, yType, yRound, yHash⟩ :=
          again.sent (sends _ laterMember).1 (sends _ laterMember).2
        have same := agree earlier earlierMember later laterMember x xMember y yMember xType yType
          (xRound.trans yRound.symm)
        exact Option.some.inj (xHash.symm.trans (same.trans yHash))
      · exact Or.inr (Or.inl secret)
  · have silent : t.numPeers = 0 ∨ t.privateKey.length ≠ 32 →
        PreparesAgree (Machine.trace step (new d t duty peer proposalValue) events) := by
      intro unable first member second _ x xMember y _ xType
      obtain ⟨valueHash, takes, -⟩ := takesUp_of_mem_sentAt xMember xType
      obtain ⟨consensusMsg, step, -⟩ := takes.step
      rw [sentAt, step] at xMember
      have able := Transport.broadcastMessage_secret (eq_ok_of_mem_outgoing xMember) xMember
      rw [show (first.1.storeValues consensusMsg.values).t.numPeers = t.numPeers from
          (config first member).numPeers,
        show (first.1.storeValues consensusMsg.values).t.privateKey = t.privateKey from
          (config first member).privateKey] at able
      rcases unable with none | short
      · exact absurd none able.1
      · exact absurd able.2 short
    rintro (none | short | single)
    · exact silent (Or.inl none)
    · exact silent (Or.inr short)
    · exact preparesAgree_of_noSecondProposal
        (fun nodes => sound_new nodes t duty peer proposalValue) single

/-- A proposal of the leader of round 2, justified by three null-prepared peers. -/
def secondRoundProposal (byte : UInt8) : Event :=
  FourPeers.receive (FourPeers.vote .prePrepare 1 2 byte)
    [FourPeers.changeTo 0 2, FourPeers.changeTo 1 2, FourPeers.changeTo 3 2]

omit [Crypto] in
/-- An instance still in round 1 sends PREPAREs for both of two conflicting proposals. -/
theorem secondRoundProposal_preparesDisagree :
    letI := constantCrypto
    ¬ PreparesAgree (Machine.trace step (FourPeers.fresh 2)
      [secondRoundProposal 9, secondRoundProposal 8]) := by
  intro agree
  have same := agree _ List.mem_cons_self _ (List.mem_cons_of_mem _ List.mem_cons_self)
    { msg := FourPeers.signed (FourPeers.vote .prepare 2 2 9) } (by decide +kernel)
    { msg := FourPeers.signed (FourPeers.vote .prepare 2 2 8) } (by decide +kernel) rfl rfl rfl
  exact absurd same (by decide)

end QBFTConsensus

end DvSpec.Consensus
