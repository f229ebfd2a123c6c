import DvSpec.Consensus.Justification
import DvSpec.Consensus.Progress

/-!
# What an instance sends, every other instance accepts

The stored prepared state always carries the PREPAREs that justify it, so the
ROUND-CHANGE messages built from it pass the receiver's check.  A PRE-PREPARE is
built from a justified quorum of ROUND-CHANGE messages, and the receiver's
independent reconstruction selects the same value.
-/

namespace DvSpec.Consensus

open DvSpec.Library

namespace QBFTConsensus

variable [Crypto]

/-! ## The prepared state -/

/-- The prepared round, the prepared hash and their PREPAREs belong together. -/
def PreparedJustified (s : QBFTConsensus) : Prop :=
  (s.preparedRound = none ∧ s.preparedValueHash = none ∧ s.preparedJustification = []) ∨
    ∃ pr, s.preparedRound = some pr ∧ s.d.quorum ≤ s.preparedJustification.length ∧
      ∀ j ∈ s.preparedJustification,
        j.type = .prepare ∧ j.round = pr ∧ j.valueHash = s.preparedValueHash

theorem Effect.preparedJustified {s : QBFTConsensus} {event : Event} {outcome : Outcome}
    (effect : s.Effect event outcome) (holds : s.PreparedJustified) :
    outcome.2.PreparedJustified := by
  have config := effect.sameConfig
  rcases effect.preparedState with ⟨round, hash, votes⟩ | ⟨_, -, fires, round, hash⟩
  · rw [PreparedJustified, round, hash, votes, config.d]
    exact holds
  · obtain ⟨-, -, chosen, enough⟩ := fires.classified
    refine Or.inr ⟨s.round, round, ?_, fun j member => ?_⟩
    · rw [config.d]
      exact enough
    · rw [chosen] at member
      obtain ⟨-, type, current, voted⟩ := mem_votesFor.mp member
      exact ⟨type, current, voted.trans hash.symm⟩

theorem preparedJustified_final {s : QBFTConsensus} (holds : s.PreparedJustified)
    (events : List Event) : (Machine.final step s events).PreparedJustified :=
  Machine.final_invariant (C := fun _ _ => True)
    (fun state event holds _ => (state.step_effect event).preparedJustified holds) holds
    fun _ _ => trivial

/-! ## ROUND-CHANGE messages -/

/-- A sent ROUND-CHANGE message with a prepared round is justified by PREPAREs for
exactly that round and hash. -/
theorem sends_roundChange {s next : QBFTConsensus} {event : Event} {copy : QBFTConsensusMsg}
    (holds : s.PreparedJustified) (sends : s.Sends event next copy)
    (type : copy.msg.type = .roundChange) :
    (copy.justification = [] ∧ copy.msg.nonePrepared = true) ∨
      (∀ j ∈ copy.justification, j.type = .prepare ∧ j.round = copy.msg.preparedRound ∧
        j.valueHash = some copy.msg.preparedValueHash) ∧
      s.d.quorum ≤ copy.justification.length := by
  obtain ⟨-, built, justification⟩ := sends.of_roundChange type
  rw [justification, built.preparedRound_eq, built.preparedValueHash_eq,
    QBFTMsg.nonePrepared_iff, built.preparedRound_eq, built.preparedValueHash_eq]
  rcases holds with ⟨round, hash, none⟩ | ⟨pr, round, enough, votes⟩
  · exact Or.inl ⟨none, by rw [round]; rfl, by rw [hash]; rfl⟩
  · right
    refine ⟨fun j member => ?_, enough⟩
    obtain ⟨prepare, same, voted⟩ := votes j member
    refine ⟨prepare, by rw [round]; exact same, ?_⟩
    -- an absent hash would be sent as the zero hash, which only goes with round zero
    cases hash : s.preparedValueHash with
    | some value => exact voted.trans hash
    | none =>
        have zero := built.consistent.mpr (by rw [hash]; rfl)
        rw [round, Option.getD_some] at zero
        exact absurd (same.trans zero) (Nat.ne_of_gt j.round_pos)

theorem roundChange_accepted {s next : QBFTConsensus} {event : Event} {copy : QBFTConsensusMsg}
    (holds : s.PreparedJustified) (sends : s.Sends event next copy)
    (type : copy.msg.type = .roundChange) {other : QBFTConsensus} (d : other.d = s.d) :
    other.isJustified copy = .ok true := by
  rw [isJustified_roundChange type, isJustifiedRoundChange_iff.mpr]
  refine ⟨type, (sends_roundChange holds sends type).imp_right fun ⟨votes, enough⟩ => ?_⟩
  have all : votesFor .prepare copy.msg.preparedRound (some copy.msg.preparedValueHash)
      copy.justification = copy.justification := votesFor_eq_self votes
  rw [all, d]
  exact enough

/-! ## PRE-PREPARE messages -/

omit [Crypto] in
/-- A quorum justified by PREPAREs selects their value. -/
theorem PreparedQrc.selects {quorum round : Nat} {messages : List QBFTMsg} {pr : Nat} {pv : Bytes}
    {changes prepares : List QBFTMsg}
    (justified : PreparedQrc quorum round messages pr pv changes prepares) :
    SelectsPrepared quorum round (changes ++ prepares) pr pv ∧
      quorum ≤ (roundChangesFor round (changes ++ prepares)).length := by
  have changeOf : ∀ rc ∈ changes, rc.type = .roundChange ∧ rc.round = round := fun rc member =>
    (mem_roundChangesFor.mp (justified.mem_changes rc member).1).2
  have prepareOf : ∀ m ∈ prepares, m.type = .prepare ∧ m.round = pr ∧ m.valueHash = some pv :=
    fun m member => (mem_votesFor.mp (justified.mem_prepares m member)).2
  have changes_eq : roundChangesFor round (changes ++ prepares) = changes := by
    have kept : roundChangesFor round changes = changes := roundChangesFor_eq_self changeOf
    have dropped : roundChangesFor round prepares = [] :=
      List.filter_eq_nil_iff.mpr fun m member => by simp [(prepareOf m member).1]
    rw [roundChangesFor, List.filter_append]
    exact (congrArg₂ _ kept dropped).trans (List.append_nil _)
  have prepares_eq : votesFor .prepare pr (some pv) (changes ++ prepares) = prepares := by
    have kept : votesFor .prepare pr (some pv) prepares = prepares :=
      votesFor_eq_self prepareOf
    have dropped : votesFor .prepare pr (some pv) changes = [] :=
      List.filter_eq_nil_iff.mpr fun rc member => by simp [(changeOf rc member).1]
    rw [votesFor, List.filter_append]
    exact congrArg₂ _ dropped kept
  refine ⟨⟨?_, ?_, ?_, ?_⟩, ?_⟩
  · obtain ⟨m, member⟩ := List.exists_mem_of_ne_nil _ justified.prepares_ne_nil
    refine highestPrepared_eq_some_iff.mp <| highestPrepared_eq_some
      ⟨m, List.mem_append_right _ member, (prepareOf m member).1⟩ fun j member prepare => ?_
    rcases List.mem_append.mp member with change | inside
    · rw [(changeOf j change).1] at prepare
      cases prepare
    · exact (prepareOf j inside).2
  · rw [prepares_eq]
    exact justified.prepares_quorum
  · rw [changes_eq]
    exact fun rc member => (justified.mem_changes rc member).2
  · rw [changes_eq]
    exact justified.highest
  · rw [changes_eq]
    exact justified.changes_quorum

/-- The value of a sent PRE-PREPARE is the one its justification selects, or the own
proposal when every ROUND-CHANGE is null-prepared. -/
theorem sends_prePrepare {s next : QBFTConsensus} {event : Event} {copy : QBFTConsensusMsg}
    (sends : s.Sends event next copy) (type : copy.msg.type = .prePrepare) :
    0 < s.d.nodes ∧ s.d.leader s.duty copy.msg.round = copy.msg.peerIdx ∧
      s.d.quorum ≤ (roundChangesFor copy.msg.round copy.justification).length ∧
      (AllNonePrepared copy.msg.round copy.justification ∨
        ∃ pr pv, SelectsPrepared s.d.quorum copy.msg.round copy.justification pr pv ∧
          copy.msg.valueHash = some pv) := by
  obtain ⟨consensusMsg, justified, valueHash, -, fires, chosen, built, justification, -⟩ :=
    sends.of_prePrepare type
  obtain ⟨-, -, found, nodes, leader⟩ := fires.classified
  rw [justification, built.round_eq, built.peerIdx_eq, built.valueHash_eq]
  refine ⟨nodes, leader, ?_⟩
  rcases justifiedQrc_cases found with ⟨rfl, enough⟩ | ⟨-, pr, pv, changes, prepares, rfl, spec⟩
  · have same := roundChangesFor_nullChangesFor s.round (s.received consensusMsg).allMsg
    rw [round_received]
    rw [round_received] at enough
    refine ⟨by rw [same]; exact enough, Or.inl fun rc member => ?_⟩
    rw [same] at member
    exact (mem_nullChangesFor.mp member).2.2.2
  · obtain ⟨selects, enough⟩ := spec.selects
    refine ⟨enough, Or.inr ⟨pr, pv, selects, ?_⟩⟩
    have first := highestPrepared_eq_some_iff.mpr selects.1
    rcases chosen with ⟨none, -⟩ | ⟨pr', pv', highest, rfl⟩
    · cases none.symm.trans first
    · cases highest.symm.trans first
      have votes := selects.2.1
      rw [d_received] at votes
      rw [if_pos votes]

theorem prePrepare_accepted {s next : QBFTConsensus} {event : Event} {copy : QBFTConsensusMsg}
    (sends : s.Sends event next copy) (type : copy.msg.type = .prePrepare)
    {other : QBFTConsensus} (d : other.d = s.d) (duty : other.duty = s.duty) :
    other.isJustified copy = .ok true := by
  obtain ⟨nodes, leader, enough, value⟩ := sends_prePrepare sends type
  rw [isJustified_prePrepare type, isJustifiedPrePrepare_iff, d, duty]
  exact ⟨type, nodes, leader, Or.inr ⟨enough, value⟩⟩

/-! ## Sender and receiver agree -/

/-- A message that every instance with this definition and duty accepts; a reported
prepared round comes with the PREPAREs for exactly it. -/
structure AcceptedEverywhere (d : Definition) (duty : Duty) (copy : QBFTConsensusMsg) : Prop where
  accepted : ∀ other : QBFTConsensus, other.d = d → other.duty = duty →
    other.isJustified copy = .ok true
  prepared : copy.msg.type = .roundChange → 0 < copy.msg.preparedRound →
    (∀ j ∈ copy.justification, j.type = .prepare ∧ j.round = copy.msg.preparedRound ∧
      j.valueHash = some copy.msg.preparedValueHash) ∧
    d.quorum ≤ copy.justification.length ∧ copy.msg.preparedRound ≤ copy.msg.round

/-- What the sender's rules justify, the receiver's checks accept. -/
theorem handleMessage_accepted (d : Definition) (t : Transport)
    (duty : Duty) (peer : Nat) (proposalValue : Bytes) (events : List Event)
    (consensusMsg : QBFTConsensusMsg) :
    ∀ copy ∈ outgoing ((Machine.final step (new d t duty peer proposalValue) events).handleMessage
        consensusMsg).1,
      copy.msg.type = .prePrepare ∨ copy.msg.type = .roundChange →
        AcceptedEverywhere d duty copy := by
  intro copy member kind
  have config := final_sameConfig (new d t duty peer proposalValue) events
  have holds : (Machine.final step (new d t duty peer proposalValue) events).PreparedJustified :=
    preparedJustified_final (Or.inl ⟨rfl, rfl, rfl⟩) events
  generalize Machine.final step (new d t duty peer proposalValue) events = s at *
  have sends := (s.handleMessage_effect consensusMsg).sends member
  constructor
  · intro other sameD sameDuty
    rcases kind with type | type
    · exact prePrepare_accepted sends type (sameD.trans config.d.symm)
        (sameDuty.trans config.duty.symm)
    · exact roundChange_accepted holds sends type (sameD.trans config.d.symm)
  · intro type positive
    rcases sends_roundChange holds sends type with ⟨-, none⟩ | ⟨votes, enough⟩
    · exact absurd (QBFTMsg.nonePrepared_iff.mp none).1 (Nat.ne_of_gt positive)
    · have quorum : d.quorum ≤ copy.justification.length := by
        rw [config.d] at enough
        exact enough
      exact ⟨votes, quorum, copy.msg.preparedRound_le⟩

open FourPeers in
omit [Crypto] in
/-- Peer 3 follows the peers 1 and 2 to the second round and reports the PREPAREs of the first;
peer 1 proposes there what peer 2 has reported. -/
theorem handleMessage_accepted_fourPeers :
    letI := constantCrypto
    let prepared := Machine.final step (new definition transport attesterDuty 3 [7])
      [receive (vote .prepare 0 1 9), receive (vote .prepare 1 1 9), receive (vote .prepare 2 1 9),
        receive (changeTo 1 2)]
    let leader := Machine.final step (new definition transport attesterDuty 1 [7])
      [receive (changeTo 0 2), .receive (changeWithPrepares 2 9)]
    (∃ copy ∈ outgoing (prepared.handleMessage { msg := changeTo 2 2 }).1,
        copy.msg.type = .roundChange ∧ copy.msg.preparedRound = 1 ∧
          AcceptedEverywhere definition attesterDuty copy) ∧
      ∃ copy ∈ outgoing (leader.handleMessage { msg := changeTo 3 2 }).1,
        copy.msg.type = .prePrepare ∧ copy.msg.valueHash = some (valueHash 9) ∧
          AcceptedEverywhere definition attesterDuty copy := by
  let := constantCrypto
  constructor
  · obtain ⟨copy, member, type, reported⟩ : ∃ copy ∈ outgoing ((Machine.final step
        (new definition transport attesterDuty 3 [7])
        [receive (vote .prepare 0 1 9), receive (vote .prepare 1 1 9),
          receive (vote .prepare 2 1 9), receive (changeTo 1 2)]).handleMessage
            { msg := changeTo 2 2 }).1,
        copy.msg.type = .roundChange ∧ copy.msg.preparedRound = 1 := by decide +kernel
    exact ⟨copy, member, type, reported, handleMessage_accepted definition transport attesterDuty 3
      [7] _ _ copy member (Or.inr type)⟩
  · obtain ⟨copy, member, type, value⟩ : ∃ copy ∈ outgoing ((Machine.final step
        (new definition transport attesterDuty 1 [7])
        [receive (changeTo 0 2), .receive (changeWithPrepares 2 9)]).handleMessage
          { msg := changeTo 3 2 }).1,
        copy.msg.type = .prePrepare ∧ copy.msg.valueHash = some (valueHash 9) := by decide +kernel
    exact ⟨copy, member, type, value, handleMessage_accepted definition transport attesterDuty 1
      [7] _ _ copy member (Or.inl type)⟩

end QBFTConsensus

end DvSpec.Consensus
