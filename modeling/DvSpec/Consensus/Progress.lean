import DvSpec.Consensus.Reaction
import DvSpec.Library.Machine

/-!
# Rounds, rules and votes over whole runs

The rounds of an undecided instance only move forward, a triggered rule stays
recorded while its round lasts, and a decided instance is frozen.  From these
three facts follows how often each kind of vote can be sent.
-/

namespace DvSpec.Consensus

open DvSpec.Library

namespace QBFTConsensus

variable [Crypto]

/-! ## Configuration -/

/-- The parts of an instance that no event changes. -/
structure SameConfig (s next : QBFTConsensus) : Prop where
  d : next.d = s.d
  duty : next.duty = s.duty
  peer : next.peer = s.peer
  proposalValue : next.proposalValue = s.proposalValue
  numPeers : next.t.numPeers = s.t.numPeers
  privateKey : next.t.privateKey = s.t.privateKey

omit [Crypto] in
theorem SameConfig.refl (s : QBFTConsensus) : SameConfig s s := ⟨rfl, rfl, rfl, rfl, rfl, rfl⟩

omit [Crypto] in
theorem SameConfig.trans {s next last : QBFTConsensus} (first : SameConfig s next)
    (second : SameConfig next last) : SameConfig s last :=
  ⟨second.d.trans first.d, second.duty.trans first.duty, second.peer.trans first.peer,
    second.proposalValue.trans first.proposalValue, second.numPeers.trans first.numPeers,
    second.privateKey.trans first.privateKey⟩

omit [Crypto] in
theorem SameConfig.symm {s next : QBFTConsensus} (same : SameConfig s next) :
    SameConfig next s :=
  ⟨same.d.symm, same.duty.symm, same.peer.symm, same.proposalValue.symm, same.numPeers.symm,
    same.privateKey.symm⟩

omit [Crypto] in
theorem sameConfig_changeRound {s next : QBFTConsensus} (same : SameConfig s next) (r : Nat) :
    SameConfig s (next.changeRound r) := by
  rw [changeRound_eq]
  exact ⟨same.d, same.duty, same.peer, same.proposalValue, same.numPeers, same.privateKey⟩

theorem sameConfig_marked (s : QBFTConsensus) (consensusMsg : QBFTConsensusMsg)
    (rule : UponRule) : SameConfig s (s.marked consensusMsg rule) :=
  ⟨rfl, rfl, rfl, rfl, rfl, rfl⟩

theorem Effect.sameConfig {s : QBFTConsensus} {event : Event} {outcome : Outcome}
    (effect : s.Effect event outcome) : SameConfig s outcome.2 := by
  cases effect with
  | idle => exact ⟨rfl, rfl, rfl, rfl, rfl, rfl⟩
  | resent => exact ⟨rfl, rfl, rfl, rfl, rfl, rfl⟩
  | kept => exact ⟨rfl, rfl, rfl, rfl, rfl, rfl⟩
  | noted => exact sameConfig_marked s _ _
  | prePrepared => exact sameConfig_changeRound (sameConfig_marked s _ _) _
  | prepared => exact ⟨rfl, rfl, rfl, rfl, rfl, rfl⟩
  | committed => exact ⟨rfl, rfl, rfl, rfl, rfl, rfl⟩
  | @adopted consensusMsg fires =>
      have same := sameConfig_changeRound (sameConfig_marked s consensusMsg .justifiedDecided)
        consensusMsg.msg.round
      exact ⟨same.d, same.duty, same.peer, same.proposalValue, same.numPeers, same.privateKey⟩
  | jumped => exact sameConfig_changeRound (sameConfig_marked s _ _) _
  | proposed => exact sameConfig_marked s _ _
  | timedOut => exact sameConfig_changeRound (SameConfig.refl s) _

theorem step_sameConfig (s : QBFTConsensus) (event : Event) : SameConfig s (s.step event).2 :=
  (s.step_effect event).sameConfig

theorem final_sameConfig (s : QBFTConsensus) (events : List Event) :
    SameConfig s (Machine.final step s events) :=
  Machine.final_invariant (C := fun _ _ => True)
    (fun state event same _ => same.trans (state.step_sameConfig event))
    (SameConfig.refl s) fun _ _ => trivial

/-! ## Where the buffer, the prepared state and the decision come from -/

/-- The buffer only grows by accepted messages. -/
theorem Effect.buffer {s : QBFTConsensus} {event : Event} {outcome : Outcome}
    (effect : s.Effect event outcome) :
    outcome.2.buffer = s.buffer ∨
      ∃ consensusMsg, event = .receive consensusMsg ∧ s.Accepts consensusMsg ∧
        outcome.2.buffer = (s.received consensusMsg).buffer := by
  cases effect with
  | idle => exact Or.inl rfl
  | resent => exact Or.inl rfl
  | kept _ _ accepts => exact Or.inr ⟨_, rfl, accepts, rfl⟩
  | noted _ _ _ accepts => exact Or.inr ⟨_, rfl, accepts, rfl⟩
  | prePrepared fires => exact Or.inr ⟨_, rfl, fires.toAccepts, by simp⟩
  | prepared fires => exact Or.inr ⟨_, rfl, fires.toAccepts, rfl⟩
  | committed fires => exact Or.inr ⟨_, rfl, fires.toAccepts, rfl⟩
  | adopted fires => exact Or.inr ⟨_, rfl, fires.toAccepts, by simp⟩
  | jumped fires => exact Or.inr ⟨_, rfl, fires.toAccepts, by simp⟩
  | proposed fires => exact Or.inr ⟨_, rfl, fires.toAccepts, rfl⟩
  | timedOut => exact Or.inl (by simp)

omit [Crypto] in
theorem allMsg_congr {s other : QBFTConsensus} (same : other.buffer = s.buffer) :
    other.allMsg = s.allMsg := by
  unfold allMsg flatten
  rw [same]

omit [Crypto] in
theorem buffered_congr {s other : QBFTConsensus} (same : other.buffer = s.buffer) :
    other.buffered = s.buffered := by
  unfold buffered
  rw [same]

/-- The decision is only written by a COMMIT quorum or by a DECIDED message. -/
theorem Effect.qCommit {s : QBFTConsensus} {event : Event} {outcome : Outcome}
    (effect : s.Effect event outcome) :
    outcome.2.qCommit = s.qCommit ∨
      ∃ consensusMsg rule, event = .receive consensusMsg ∧
        (rule = .quorumCommits ∨ rule = .justifiedDecided) ∧
        s.Fires consensusMsg rule outcome.2.qCommit := by
  cases effect with
  | idle => exact Or.inl rfl
  | resent => exact Or.inl rfl
  | kept => exact Or.inl rfl
  | noted => exact Or.inl rfl
  | prePrepared => exact Or.inl (by simp)
  | prepared => exact Or.inl rfl
  | committed fires => exact Or.inr ⟨_, _, rfl, Or.inl rfl, fires⟩
  | adopted fires => exact Or.inr ⟨_, _, rfl, Or.inr rfl, fires⟩
  | jumped => exact Or.inl (by simp)
  | proposed => exact Or.inl rfl
  | timedOut => exact Or.inl (by simp)

/-- The prepared state is only written by a PREPARE quorum. -/
theorem Effect.preparedState {s : QBFTConsensus} {event : Event} {outcome : Outcome}
    (effect : s.Effect event outcome) :
    (outcome.2.preparedRound = s.preparedRound ∧
        outcome.2.preparedValueHash = s.preparedValueHash ∧
        outcome.2.preparedJustification = s.preparedJustification) ∨
      ∃ consensusMsg, event = .receive consensusMsg ∧
        s.Fires consensusMsg .quorumPrepares outcome.2.preparedJustification ∧
        outcome.2.preparedRound = some s.round ∧
        outcome.2.preparedValueHash = consensusMsg.msg.valueHash := by
  cases effect with
  | idle => exact Or.inl ⟨rfl, rfl, rfl⟩
  | resent => exact Or.inl ⟨rfl, rfl, rfl⟩
  | kept => exact Or.inl ⟨rfl, rfl, rfl⟩
  | noted => exact Or.inl ⟨rfl, rfl, rfl⟩
  | prePrepared => exact Or.inl (by simp)
  | prepared fires => exact Or.inr ⟨_, rfl, fires, rfl, rfl⟩
  | committed => exact Or.inl ⟨rfl, rfl, rfl⟩
  | adopted => exact Or.inl (by simp)
  | jumped => exact Or.inl (by simp)
  | proposed => exact Or.inl ⟨rfl, rfl, rfl⟩
  | timedOut => exact Or.inl (by simp)

/-! ## Deciding is final -/

/-- A decided instance only updates stored values and resend counters. -/
theorem Effect.frozen {s : QBFTConsensus} {event : Event} {outcome : Outcome}
    (effect : s.Effect event outcome) (decided : s.qCommit ≠ []) :
    ∃ values decidedResends,
      outcome.2 = { s.storeValues values with decidedResends } := by
  cases effect with
  | idle _ _ values decidedResends => exact ⟨values, decidedResends, rfl⟩
  | resent _ _ _ _ _ decidedResends => exact ⟨_, decidedResends, rfl⟩
  | kept _ _ accepts => exact absurd accepts.undecided decided
  | noted _ _ _ accepts => exact absurd accepts.undecided decided
  | prePrepared fires => exact absurd fires.undecided decided
  | prepared fires => exact absurd fires.undecided decided
  | committed fires => exact absurd fires.undecided decided
  | adopted fires => exact absurd fires.undecided decided
  | jumped fires => exact absurd fires.undecided decided
  | proposed fires => exact absurd fires.undecided decided
  | timedOut undecided => exact absurd undecided decided

/-- A DECIDED or COMMIT quorum leaves something in `q_commit`. -/
theorem Fires.ne_nil {s : QBFTConsensus} {consensusMsg : QBFTConsensusMsg} {rule : UponRule}
    {justification : List QBFTMsg} (nodes : 0 < s.d.nodes)
    (fires : s.Fires consensusMsg rule justification)
    (deciding : rule = .quorumCommits ∨ rule = .justifiedDecided) : justification ≠ [] := by
  have quorum := Definition.quorum_pos nodes
  rcases deciding with rfl | rfl
  · obtain ⟨-, -, -, enough⟩ := fires.classified
    exact List.ne_nil_of_length_pos (Nat.lt_of_lt_of_le quorum enough)
  · obtain ⟨type, rfl⟩ := fires.classified
    have justified := fires.justified
    simp only [isJustified, type, Except.ok.injEq, isJustifiedDecided, ne_eq, not_true, if_false,
      Bool.if_false_left, Bool.and_true, Bool.not_eq_true', decide_eq_false_iff_not,
      Nat.not_lt] at justified
    intro empty
    rw [empty] at justified
    exact absurd justified (Nat.not_le.mpr quorum)

/-! ## Rounds move forward -/

/-- How an event moves an undecided instance that stays undecided: to a later round, or
it stays in its round and keeps every recorded rule. -/
theorem Effect.moves {s : QBFTConsensus} {event : Event} {outcome : Outcome}
    (nodes : 0 < s.d.nodes) (effect : s.Effect event outcome) (undecided : outcome.2.qCommit = []) :
    s.round < outcome.2.round ∨
      s.round = outcome.2.round ∧ ∀ key, s.dedupRules.contains key = true →
        outcome.2.dedupRules.contains key = true := by
  have marking : ∀ (key : UponRule × Nat) rule, s.dedupRules.contains key = true →
      (s.dedupRules.set (rule, s.round) true).contains key = true := by
    intro key rule recorded
    rw [Dict.contains_set, recorded, Bool.or_true]
  cases effect with
  | idle => exact Or.inr ⟨rfl, fun _ recorded => recorded⟩
  | resent => exact Or.inr ⟨rfl, fun _ recorded => recorded⟩
  | kept => exact Or.inr ⟨rfl, fun _ recorded => recorded⟩
  | noted => exact Or.inr ⟨rfl, fun key => marking key _⟩
  | @prePrepared consensusMsg fires =>
      obtain ⟨-, notPast, -⟩ := fires.classified
      rw [round_received] at notPast
      rcases Nat.eq_or_lt_of_le notPast with same | later
      · refine Or.inr ⟨by simpa using same, fun key recorded => ?_⟩
        have kept := dedupRules_changeRound_self (s.marked consensusMsg .justifiedPrePrepare)
        rw [round_marked, same] at kept
        rw [kept]
        exact marking key _ recorded
      · exact Or.inl (by simpa using later)
  | prepared => exact Or.inr ⟨rfl, fun key => marking key _⟩
  | committed fires => exact absurd undecided (fires.ne_nil nodes (Or.inl rfl))
  | adopted fires => exact absurd undecided (fires.ne_nil nodes (Or.inr rfl))
  | jumped _ future => exact Or.inl (by simpa using future)
  | proposed => exact Or.inr ⟨rfl, fun key => marking key _⟩
  | timedOut => exact Or.inl (by simp)

/-- A rule is spent for a round when it can not be triggered there any more. -/
def Spent (rule : UponRule) (round : Nat) (s : QBFTConsensus) : Prop :=
  s.qCommit ≠ [] ∨ round < s.round ∨
    round = s.round ∧ s.dedupRules.contains (rule, s.round) = true

theorem Fires.beyond_spent {s : QBFTConsensus} {consensusMsg : QBFTConsensusMsg}
    {rule : UponRule} {justification : List QBFTMsg} {round : Nat}
    (fires : s.Fires consensusMsg rule justification) (spent : s.Spent rule round) :
    round < s.round := by
  rcases spent with decided | past | ⟨-, recorded⟩
  · exact absurd fires.undecided decided
  · exact past
  · rw [fires.fresh] at recorded
    cases recorded

theorem Effect.qCommit_of_decided {s : QBFTConsensus} {event : Event} {outcome : Outcome}
    (effect : s.Effect event outcome) (decided : s.qCommit ≠ []) :
    outcome.2.qCommit = s.qCommit := by
  obtain ⟨values, decidedResends, frozen⟩ := effect.frozen decided
  rw [frozen]
  rfl

/-- An instance that is undecided now was undecided before. -/
theorem Effect.undecided {s : QBFTConsensus} {event : Event} {outcome : Outcome}
    (effect : s.Effect event outcome) (undecided : outcome.2.qCommit = []) : s.qCommit = [] := by
  by_contra decided
  exact decided ((effect.qCommit_of_decided decided).symm.trans undecided)

theorem Effect.spent {s : QBFTConsensus} {event : Event} {outcome : Outcome}
    (nodes : 0 < s.d.nodes) (effect : s.Effect event outcome) {rule : UponRule} {round : Nat}
    (spent : s.Spent rule round) : outcome.2.Spent rule round := by
  by_cases undecided : outcome.2.qCommit = []
  · have before := effect.undecided undecided
    rcases effect.moves nodes undecided with later | ⟨same, kept⟩
    · rcases spent with decided | past | ⟨here, -⟩
      · exact absurd before decided
      · exact Or.inr (Or.inl (Nat.lt_trans past later))
      · exact Or.inr (Or.inl (here ▸ later))
    · rcases spent with decided | past | ⟨here, recorded⟩
      · exact absurd before decided
      · exact Or.inr (Or.inl (same ▸ past))
      · exact Or.inr (Or.inr ⟨here.trans same, same ▸ kept _ recorded⟩)
  · exact Or.inl undecided

/-! ## What an event sends -/

/-- The messages an event hands to the network. -/
def sentAt (point : QBFTConsensus × Event) : List QBFTConsensusMsg :=
  outgoing (point.1.step point.2).1

/-- The reason for which a message is sent, with the round in which it leaves the
instance. -/
inductive Sends (s : QBFTConsensus) (event : Event) (next : QBFTConsensus)
    (copy : QBFTConsensusMsg) : Prop where
  | decided (firstCommit : QBFTMsg) (more : List QBFTMsg)
      (decided : s.qCommit = firstCommit :: more) (valueHash : Bytes)
      (known : firstCommit.valueHash = some valueHash)
      (built : Transport.Built copy.msg .decided s.duty s.peer s.round (some valueHash) 0 zeroHash)
      (justification : copy.justification = s.qCommit) (round : next.round = s.round)
  | prepare (consensusMsg : QBFTConsensusMsg) (received : event = .receive consensusMsg)
      (fires : s.Fires consensusMsg .justifiedPrePrepare []) (valueHash : Bytes)
      (known : consensusMsg.msg.valueHash = some valueHash)
      (built : Transport.Built copy.msg .prepare s.duty s.peer consensusMsg.msg.round
        (some valueHash) 0 zeroHash)
      (justification : copy.justification = [])
      (after : next =
        (s.marked consensusMsg .justifiedPrePrepare).changeRound consensusMsg.msg.round)
  | commit (consensusMsg : QBFTConsensusMsg) (received : event = .receive consensusMsg)
      (prepares : List QBFTMsg) (fires : s.Fires consensusMsg .quorumPrepares prepares)
      (valueHash : Bytes) (known : consensusMsg.msg.valueHash = some valueHash)
      (built : Transport.Built copy.msg .commit s.duty s.peer s.round (some valueHash) 0 zeroHash)
      (justification : copy.justification = [])
      (after : next = { s.marked consensusMsg .quorumPrepares with
        preparedRound := some s.round
        preparedValueHash := consensusMsg.msg.valueHash
        preparedJustification := prepares })
  | roundChange (undecided : s.qCommit = [] ∧ next.qCommit = []) (future : s.round < next.round)
      (prepared : next.preparedRound = s.preparedRound)
      (built : Transport.Built copy.msg .roundChange s.duty s.peer next.round none
        (s.preparedRound.getD 0) (s.preparedValueHash.getD zeroHash))
      (justification : copy.justification = s.preparedJustification)
  | prePrepare (consensusMsg : QBFTConsensusMsg) (received : event = .receive consensusMsg)
      (justified : List QBFTMsg) (fires : s.Fires consensusMsg .quorumRoundChanges justified)
      (valueHash : Bytes)
      (chosen : (highestPrepared (preparedValues justified) = none ∧
          valueHash = hashValue s.proposalValue) ∨
        ∃ pr pv, highestPrepared (preparedValues justified) = some (pr, pv) ∧
          valueHash = if s.d.quorum ≤ (votesFor .prepare pr (some pv) justified).length
            then pv else hashValue s.proposalValue)
      (built : Transport.Built copy.msg .prePrepare s.duty s.peer s.round (some valueHash) 0
        zeroHash)
      (justification : copy.justification = justified)
      (after : next = s.marked consensusMsg .quorumRoundChanges)

theorem sends_of_uponQuorumRoundChanges {s : QBFTConsensus} {justified : List QBFTMsg}
    {copy : QBFTConsensusMsg} (member : copy ∈ outgoing (s.uponQuorumRoundChanges justified)) :
    ∃ valueHash,
      ((highestPrepared (preparedValues justified) = none ∧
          valueHash = hashValue s.proposalValue) ∨
        ∃ pr pv, highestPrepared (preparedValues justified) = some (pr, pv) ∧
          valueHash = if s.d.quorum ≤ (votesFor .prepare pr (some pv) justified).length
            then pv else hashValue s.proposalValue) ∧
      Transport.Built copy.msg .prePrepare s.duty s.peer s.round (some valueHash) 0 zeroHash ∧
      copy.justification = justified := by
  have success := eq_ok_of_mem_outgoing member
  generalize outgoing (s.uponQuorumRoundChanges justified) = sent at success member
  unfold uponQuorumRoundChanges at success
  dsimp only at success
  split at success
  · rename_i none
    obtain ⟨built, same, -⟩ := Transport.mem_broadcastMessage success member
    exact ⟨_, Or.inl ⟨none, rfl⟩, built, same⟩
  · rename_i pr pv highest
    rw [getD_preparedValues] at success
    split at success
    · rename_i enough
      obtain ⟨built, same, -⟩ := Transport.mem_broadcastMessage success member
      exact ⟨pv, Or.inr ⟨pr, pv, highest, (if_pos enough).symm⟩, built, same⟩
    · rename_i short
      obtain ⟨built, same, -⟩ := Transport.mem_broadcastMessage success member
      exact ⟨_, Or.inr ⟨pr, pv, highest, (if_neg short).symm⟩, built, same⟩

/-- Every message leaves an instance for one of these reasons. -/
theorem Effect.sends {s : QBFTConsensus} {event : Event} {outcome : Outcome}
    (effect : s.Effect event outcome) {copy : QBFTConsensusMsg}
    (member : copy ∈ outgoing outcome.1) : s.Sends event outcome.2 copy := by
  have success := eq_ok_of_mem_outgoing member
  cases effect with
  | idle answer silent => simp [silent] at member
  | kept answer silent => simp [silent] at member
  | noted rule answer silent => simp [silent] at member
  | committed => cases member
  | adopted => cases member
  | resent firstCommit more decided valueHash known =>
      obtain ⟨built, same, -⟩ := Transport.mem_broadcastMessage success member
      exact .decided firstCommit more decided valueHash known built same rfl
  | @prePrepared consensusMsg fires =>
      cases known : consensusMsg.msg.valueHash with
      | none => simp [known] at member
      | some valueHash =>
          simp only [known] at success member
          obtain ⟨built, same, -⟩ := Transport.mem_broadcastMessage success member
          exact .prepare consensusMsg rfl fires valueHash known built same rfl
  | @prepared consensusMsg justification fires =>
      cases known : consensusMsg.msg.valueHash with
      | none => simp [known] at member
      | some valueHash =>
          simp only [known] at success member
          obtain ⟨built, same, -⟩ := Transport.mem_broadcastMessage success member
          exact .commit consensusMsg rfl justification fires valueHash known built same
            (by rw [known])
  | jumped fires future =>
      obtain ⟨built, same, -⟩ := Transport.mem_broadcastRoundChange success member
      exact .roundChange ⟨fires.undecided, by simpa using fires.undecided⟩ (by simpa using future)
        (by simp) (by simpa using built) same
  | @proposed consensusMsg justified fires =>
      obtain ⟨valueHash, chosen, built, same⟩ := sends_of_uponQuorumRoundChanges member
      exact .prePrepare consensusMsg rfl justified fires valueHash chosen built same rfl
  | timedOut undecided =>
      obtain ⟨built, same, -⟩ := Transport.mem_broadcastRoundChange success member
      exact .roundChange ⟨undecided, by simpa using undecided⟩ (by simp) (by simp)
        (by simpa using built) same

/-- An event is answered by nothing or by a single broadcast. -/
theorem Effect.broadcast {s : QBFTConsensus} {event : Event} {outcome : Outcome}
    (effect : s.Effect event outcome) :
    outgoing outcome.1 = [] ∨
      ∃ t : Transport, t.numPeers = s.t.numPeers ∧
        ((∃ (msgType : MsgType) (duty : Duty) (peerIdx roundNum : Nat) (valueHash : Bytes)
            (justification : List QBFTMsg), outcome.1 =
              t.broadcastMessage msgType duty peerIdx roundNum valueHash justification) ∨
          ∃ (duty : Duty) (peerIdx roundNum : Nat) (preparedRound : Option Nat)
            (preparedValueHash : Option Bytes) (preparedJustification : List QBFTMsg),
              outcome.1 = t.broadcastRoundChange duty peerIdx roundNum preparedRound
                preparedValueHash preparedJustification) := by
  cases effect with
  | idle answer silent => exact Or.inl silent
  | kept answer silent => exact Or.inl silent
  | noted rule answer silent => exact Or.inl silent
  | committed => exact Or.inl rfl
  | adopted => exact Or.inl rfl
  | @resent consensusMsg =>
      exact Or.inr ⟨(s.storeValues consensusMsg.values).t, rfl, Or.inl ⟨_, _, _, _, _, _, rfl⟩⟩
  | @prePrepared consensusMsg fires =>
      cases consensusMsg.msg.valueHash with
      | none => exact Or.inl rfl
      | some valueHash =>
          exact Or.inr ⟨(s.storeValues consensusMsg.values).t, rfl,
            Or.inl ⟨_, _, _, _, _, _, rfl⟩⟩
  | @prepared consensusMsg justification fires =>
      cases consensusMsg.msg.valueHash with
      | none => exact Or.inl rfl
      | some valueHash =>
          exact Or.inr ⟨(s.storeValues consensusMsg.values).t, rfl,
            Or.inl ⟨_, _, _, _, _, _, rfl⟩⟩
  | @jumped consensusMsg =>
      exact Or.inr ⟨(s.storeValues consensusMsg.values).t, rfl, Or.inr ⟨_, _, _, _, _, _, rfl⟩⟩
  | timedOut => exact Or.inr ⟨s.t, rfl, Or.inr ⟨_, _, _, _, _, _, rfl⟩⟩
  | @proposed consensusMsg =>
      refine Or.inr ⟨(s.storeValues consensusMsg.values).t, rfl, Or.inl ?_⟩
      unfold uponQuorumRoundChanges
      dsimp only
      split
      · exact ⟨_, _, _, _, _, _, rfl⟩
      · split
        · exact ⟨_, _, _, _, _, _, rfl⟩
        · exact ⟨_, _, _, _, _, _, rfl⟩

/-- All the messages of one event are copies of one broadcast. -/
theorem Effect.one_broadcast {s : QBFTConsensus} {event : Event} {outcome : Outcome}
    (effect : s.Effect event outcome) {x y : QBFTConsensusMsg}
    (xMember : x ∈ outgoing outcome.1) (yMember : y ∈ outgoing outcome.1) : x = y := by
  have success := eq_ok_of_mem_outgoing xMember
  rcases effect.broadcast with
    silent | ⟨t, -, ⟨_, _, _, _, _, _, sent⟩ | ⟨_, _, _, _, _, _, sent⟩⟩
  · rw [silent] at xMember
    cases xMember
  · exact Transport.eq_of_mem_forEachPeer (sent.symm.trans success) xMember yMember
  · exact Transport.eq_of_mem_forEachPeer (sent.symm.trans success) xMember yMember

/-- A sent message carries at most one value. -/
theorem Effect.length_values_le {s : QBFTConsensus} {event : Event} {outcome : Outcome}
    (effect : s.Effect event outcome) {copy : QBFTConsensusMsg}
    (member : copy ∈ outgoing outcome.1) : copy.values.length ≤ 1 := by
  have success := eq_ok_of_mem_outgoing member
  rcases effect.broadcast with
    silent | ⟨t, -, ⟨_, _, _, _, _, _, sent⟩ | ⟨_, _, _, _, _, _, sent⟩⟩
  · rw [silent] at member
    cases member
  · obtain ⟨-, -, values⟩ := Transport.mem_broadcastMessage (sent.symm.trans success) member
    rw [values]
    exact (List.dedup_sublist _).length_le.trans (t.length_knownValue_le _)
  · obtain ⟨-, -, values⟩ := Transport.mem_broadcastRoundChange (sent.symm.trans success) member
    rw [values]
    exact t.length_knownValue_le _

/-- A message that is sent goes to every peer. -/
theorem Effect.eq_replicate {s : QBFTConsensus} {event : Event} {outcome : Outcome}
    (effect : s.Effect event outcome) {copy : QBFTConsensusMsg}
    (member : copy ∈ outgoing outcome.1) :
    outgoing outcome.1 = List.replicate s.t.numPeers copy := by
  have success := eq_ok_of_mem_outgoing member
  rcases effect.broadcast with
    silent | ⟨t, peers, ⟨_, _, _, _, _, _, sent⟩ | ⟨_, _, _, _, _, _, sent⟩⟩
  · rw [silent] at member
    cases member
  · rw [← peers]
    exact Transport.eq_replicate_of_mem (sent.symm.trans success) member
  · rw [← peers]
    exact Transport.eq_replicate_of_mem (sent.symm.trans success) member

theorem sends_of_mem_sentAt {point : QBFTConsensus × Event} {copy : QBFTConsensusMsg}
    (member : copy ∈ sentAt point) :
    point.1.Sends point.2 (point.1.step point.2).2 copy :=
  (point.1.step_effect point.2).sends member

namespace Sends

variable {s next : QBFTConsensus} {event : Event} {copy : QBFTConsensusMsg}

/-- Every message carries the duty, the index and the round of the instance that sends it. -/
theorem header (sends : s.Sends event next copy) :
    copy.msg.duty = s.duty ∧ copy.msg.peerIdx = s.peer ∧ copy.msg.round = next.round := by
  cases sends with
  | decided _ _ _ _ _ built _ round =>
      exact ⟨built.duty_eq, built.peerIdx_eq, built.round_eq.trans round.symm⟩
  | prepare _ _ _ _ _ built _ after =>
      subst after
      exact ⟨built.duty_eq, built.peerIdx_eq, by simpa using built.round_eq⟩
  | commit _ _ _ _ _ _ built _ after =>
      subst after
      exact ⟨built.duty_eq, built.peerIdx_eq, built.round_eq⟩
  | roundChange _ _ _ built => exact ⟨built.duty_eq, built.peerIdx_eq, built.round_eq⟩
  | prePrepare _ _ _ _ _ _ built _ after =>
      subst after
      exact ⟨built.duty_eq, built.peerIdx_eq, built.round_eq⟩

/-! The reason for a message is determined by its type. -/

theorem of_prepare (sends : s.Sends event next copy) (type : copy.msg.type = .prepare) :
    ∃ consensusMsg valueHash, event = .receive consensusMsg ∧
      s.Fires consensusMsg .justifiedPrePrepare [] ∧
      consensusMsg.msg.valueHash = some valueHash ∧
      Transport.Built copy.msg .prepare s.duty s.peer consensusMsg.msg.round (some valueHash) 0
        zeroHash ∧
      next = (s.marked consensusMsg .justifiedPrePrepare).changeRound consensusMsg.msg.round := by
  cases sends with
  | decided _ _ _ _ _ built => cases built.type_eq.symm.trans type
  | commit _ _ _ _ _ _ built => cases built.type_eq.symm.trans type
  | roundChange _ _ _ built => cases built.type_eq.symm.trans type
  | prePrepare _ _ _ _ _ _ built => cases built.type_eq.symm.trans type
  | prepare consensusMsg received fires valueHash known built _ after =>
      exact ⟨consensusMsg, valueHash, received, fires, known, built, after⟩

theorem of_commit (sends : s.Sends event next copy) (type : copy.msg.type = .commit) :
    ∃ consensusMsg prepares valueHash, event = .receive consensusMsg ∧
      s.Fires consensusMsg .quorumPrepares prepares ∧
      consensusMsg.msg.valueHash = some valueHash ∧
      Transport.Built copy.msg .commit s.duty s.peer s.round (some valueHash) 0 zeroHash ∧
      next = { s.marked consensusMsg .quorumPrepares with
        preparedRound := some s.round
        preparedValueHash := consensusMsg.msg.valueHash
        preparedJustification := prepares } := by
  cases sends with
  | decided _ _ _ _ _ built => cases built.type_eq.symm.trans type
  | prepare _ _ _ _ _ built => cases built.type_eq.symm.trans type
  | roundChange _ _ _ built => cases built.type_eq.symm.trans type
  | prePrepare _ _ _ _ _ _ built => cases built.type_eq.symm.trans type
  | commit consensusMsg received prepares fires valueHash known built _ after =>
      exact ⟨consensusMsg, prepares, valueHash, received, fires, known, built, after⟩

theorem of_roundChange (sends : s.Sends event next copy)
    (type : copy.msg.type = .roundChange) :
    s.round < next.round ∧
      Transport.Built copy.msg .roundChange s.duty s.peer next.round none
        (s.preparedRound.getD 0) (s.preparedValueHash.getD zeroHash) ∧
      copy.justification = s.preparedJustification := by
  cases sends with
  | decided _ _ _ _ _ built => cases built.type_eq.symm.trans type
  | prepare _ _ _ _ _ built => cases built.type_eq.symm.trans type
  | commit _ _ _ _ _ _ built => cases built.type_eq.symm.trans type
  | prePrepare _ _ _ _ _ _ built => cases built.type_eq.symm.trans type
  | roundChange _ future _ built justification => exact ⟨future, built, justification⟩

theorem of_prePrepare (sends : s.Sends event next copy) (type : copy.msg.type = .prePrepare) :
    ∃ consensusMsg justified valueHash, event = .receive consensusMsg ∧
      s.Fires consensusMsg .quorumRoundChanges justified ∧
      ((highestPrepared (preparedValues justified) = none ∧
          valueHash = hashValue s.proposalValue) ∨
        ∃ pr pv, highestPrepared (preparedValues justified) = some (pr, pv) ∧
          valueHash = if s.d.quorum ≤ (votesFor .prepare pr (some pv) justified).length
            then pv else hashValue s.proposalValue) ∧
      Transport.Built copy.msg .prePrepare s.duty s.peer s.round (some valueHash) 0 zeroHash ∧
      copy.justification = justified ∧ next = s.marked consensusMsg .quorumRoundChanges := by
  cases sends with
  | decided _ _ _ _ _ built => cases built.type_eq.symm.trans type
  | prepare _ _ _ _ _ built => cases built.type_eq.symm.trans type
  | commit _ _ _ _ _ _ built => cases built.type_eq.symm.trans type
  | roundChange _ _ _ built => cases built.type_eq.symm.trans type
  | prePrepare consensusMsg received justified fires valueHash chosen built justification after =>
      exact ⟨consensusMsg, justified, valueHash, received, fires, chosen, built, justification,
        after⟩

/-- COMMITs and PRE-PREPAREs leave the rule that sent them spent for their round, and
were not sent in a round for which it was spent. -/
theorem spent (sends : s.Sends event next copy) {rule : UponRule}
    (sender : copy.msg.type = .commit ∧ rule = .quorumPrepares ∨
      copy.msg.type = .prePrepare ∧ rule = .quorumRoundChanges) :
    next.Spent rule copy.msg.round ∧ ∀ round, s.Spent rule round → round < copy.msg.round := by
  rcases sender with ⟨type, rfl⟩ | ⟨type, rfl⟩
  · obtain ⟨consensusMsg, _, _, -, fires, -, built, after⟩ := sends.of_commit type
    subst after
    rw [built.round_eq]
    refine ⟨Or.inr (Or.inr ⟨rfl, ?_⟩), fun round spent => fires.beyond_spent spent⟩
    simp [Dict.contains_set]
  · obtain ⟨consensusMsg, _, _, -, fires, -, built, -, after⟩ := sends.of_prePrepare type
    subst after
    rw [built.round_eq]
    refine ⟨Or.inr (Or.inr ⟨rfl, ?_⟩), fun round spent => fires.beyond_spent spent⟩
    simp [Dict.contains_set]

end Sends

end QBFTConsensus

end DvSpec.Consensus
