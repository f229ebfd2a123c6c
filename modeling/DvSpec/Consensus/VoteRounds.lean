import DvSpec.Consensus.Progress

/-!
# At most one COMMIT and one PRE-PREPARE per round

Over a whole run of one instance, including calls that raise, the round moves
forward, COMMITs are sent in strictly increasing rounds, PRE-PREPAREs in distinct
rounds, and the prepared round follows the round.
-/

namespace DvSpec.Consensus

open DvSpec.Library

namespace QBFTConsensus

variable [Crypto]

/-! ## The prepared round -/

/-- While undecided, the prepared round lies between one and the current round. -/
def PreparedInRound (s : QBFTConsensus) : Prop :=
  1 ≤ s.round ∧ ∀ pr, s.preparedRound = some pr → 1 ≤ pr ∧ pr ≤ s.round

omit [Crypto] in
theorem PreparedInRound.later {s next : QBFTConsensus} (holds : s.PreparedInRound)
    (round : s.round ≤ next.round) (prepared : next.preparedRound = s.preparedRound) :
    next.PreparedInRound := by
  refine ⟨Nat.le_trans holds.1 round, fun pr same => ?_⟩
  obtain ⟨positive, bounded⟩ := holds.2 pr (prepared ▸ same)
  exact ⟨positive, Nat.le_trans bounded round⟩

theorem Effect.preparedInRound {s : QBFTConsensus} {event : Event} {outcome : Outcome}
    (nodes : 0 < s.d.nodes) (effect : s.Effect event outcome) (holds : s.PreparedInRound)
    (undecided : outcome.2.qCommit = []) : outcome.2.PreparedInRound := by
  have forward : s.round ≤ outcome.2.round := by
    rcases effect.moves nodes undecided with later | ⟨same, -⟩
    · exact Nat.le_of_lt later
    · exact Nat.le_of_eq same
  rcases effect.preparedState with ⟨same, -⟩ | ⟨_, -, -, now, -⟩
  · exact holds.later forward same
  · refine ⟨Nat.le_trans holds.1 forward, fun pr same => ?_⟩
    cases now.symm.trans same
    exact ⟨holds.1, forward⟩

/-- What holds in every state of a run. -/
structure Sound (s : QBFTConsensus) : Prop where
  nodes : 0 < s.d.nodes
  prepared : s.qCommit = [] → s.PreparedInRound

theorem Sound.step {s : QBFTConsensus} (sound : s.Sound) (event : Event) :
    (s.step event).2.Sound := by
  have effect := s.step_effect event
  refine ⟨by rw [effect.sameConfig.d]; exact sound.nodes, fun undecided => ?_⟩
  have before := effect.undecided undecided
  exact effect.preparedInRound sound.nodes (sound.prepared before) undecided

theorem sound_new {d : Definition} (nodes : 0 < d.nodes) (t : Transport) (duty : Duty)
    (peer : Nat) (proposalValue : Bytes) : (new d t duty peer proposalValue).Sound :=
  ⟨nodes, fun _ => ⟨Nat.le_refl _, fun _ none => by cases none⟩⟩

theorem sound_final {s : QBFTConsensus} (sound : s.Sound) (events : List Event) :
    (Machine.final QBFTConsensus.step s events).Sound :=
  Machine.final_invariant (C := fun _ _ => True)
    (fun _ event holds _ => holds.step event) sound fun _ _ => trivial

/-! ## Votes of different steps -/

theorem sends_pairwise {start : QBFTConsensus} (sound : start.Sound) (events : List Event)
    {type : MsgType} {rule : UponRule}
    (sender : type = .commit ∧ rule = .quorumPrepares ∨
      type = .prePrepare ∧ rule = .quorumRoundChanges) :
    (Machine.trace QBFTConsensus.step start events).Pairwise fun earlier later =>
      ∀ x ∈ sentAt earlier, ∀ y ∈ sentAt later, x.msg.type = type → y.msg.type = type →
        x.msg.round < y.msg.round := by
  refine Machine.trace_pairwise (C := fun _ _ => True) (I := Sound)
    (A := fun point s => ∀ x ∈ sentAt point, x.msg.type = type → s.Spent rule x.msg.round)
    (fun _ event holds _ => holds.step event) ?_ ?_ ?_ sound fun _ _ => trivial
  · intro s event _ _ x member sent
    exact ((sends_of_mem_sentAt member).spent (sent ▸ sender)).1
  · intro point s event holds _ spent x member sent
    exact (s.step_effect event).spent holds.nodes (spent x member sent)
  · intro point s event _ _ spent x xMember y yMember xSent ySent
    exact ((sends_of_mem_sentAt yMember).spent (ySent ▸ sender)).2 _ (spent x xMember xSent)

/-! ## The run of an instance -/

/-- Only the step in which a DECIDED message decides may lower the round. -/
theorem Effect.round_mono {s : QBFTConsensus} {event : Event} {outcome : Outcome}
    (nodes : 0 < s.d.nodes) (effect : s.Effect event outcome)
    (back : outcome.2.round < s.round) :
    ∃ consensusMsg, event = .receive consensusMsg ∧ consensusMsg.msg.type = .decided ∧
      s.qCommit = [] ∧ outcome.2.qCommit ≠ [] := by
  by_cases undecided : outcome.2.qCommit = []
  · rcases effect.moves nodes undecided with later | ⟨same, -⟩
    · exact absurd back (Nat.not_lt.mpr (Nat.le_of_lt later))
    · exact absurd same (Nat.ne_of_gt back)
  · cases effect with
    | adopted fires =>
        exact ⟨_, rfl, fires.classified.1, fires.undecided, undecided⟩
    | idle => exact absurd back (Nat.lt_irrefl _)
    | resent => exact absurd back (Nat.lt_irrefl _)
    | kept => exact absurd back (Nat.lt_irrefl _)
    | noted => exact absurd back (Nat.lt_irrefl _)
    | prepared => exact absurd back (Nat.lt_irrefl _)
    | committed => exact absurd back (Nat.lt_irrefl _)
    | proposed => exact absurd back (Nat.lt_irrefl _)
    | prePrepared fires => exact absurd fires.undecided (by simpa using undecided)
    | jumped fires => exact absurd fires.undecided (by simpa using undecided)
    | timedOut before => exact absurd before (by simpa using undecided)

/-- How the rounds and votes of a run of an instance progress. -/
structure MovesForward (points : List (QBFTConsensus × Event)) : Prop where
  /-- The round decreases at most in the step in which a DECIDED message decides. -/
  round_mono : ∀ point ∈ points, (point.1.step point.2).2.round < point.1.round →
    ∃ consensusMsg, point.2 = .receive consensusMsg ∧ consensusMsg.msg.type = .decided ∧
      point.1.qCommit = [] ∧ (point.1.step point.2).2.qCommit ≠ []
  /-- One step sends copies of a single message. -/
  one_broadcast : ∀ point ∈ points, ∀ x ∈ sentAt point, ∀ y ∈ sentAt point, x = y
  /-- Successive COMMITs have strictly increasing rounds. -/
  commits_increase : points.Pairwise fun earlier later =>
    ∀ x ∈ sentAt earlier, ∀ y ∈ sentAt later, x.msg.type = .commit → y.msg.type = .commit →
      x.msg.round < y.msg.round
  /-- No two steps send a PRE-PREPARE for one round. -/
  prePrepare_once : points.Pairwise fun earlier later =>
    ∀ x ∈ sentAt earlier, ∀ y ∈ sentAt later,
      x.msg.type = .prePrepare → y.msg.type = .prePrepare → x.msg.round ≠ y.msg.round
  /-- The prepared round is never dropped and never decreases. -/
  preparedRound_mono : ∀ point ∈ points, ∀ pr, point.1.preparedRound = some pr →
    ∃ later, pr ≤ later ∧ (point.1.step point.2).2.preparedRound = some later
  /-- The prepared round does not exceed the round of an undecided instance. -/
  preparedRound_le : ∀ point ∈ points, (point.1.step point.2).2.qCommit = [] →
    ∀ pr, (point.1.step point.2).2.preparedRound = some pr →
      pr ≤ (point.1.step point.2).2.round

/-- COMMIT and PRE-PREPARE are sent at most once per round, and rounds only move forward. -/
theorem run_movesForward {d : Definition} (nodes : 0 < d.nodes) (t : Transport) (duty : Duty)
    (peer : Nat) (proposalValue : Bytes) (events : List Event) :
    MovesForward
      (Machine.trace QBFTConsensus.step (new d t duty peer proposalValue) events) := by
  have start := sound_new nodes t duty peer proposalValue
  have sound : ∀ point ∈ Machine.trace QBFTConsensus.step (new d t duty peer proposalValue) events,
      point.1.Sound :=
    Machine.trace_invariant (C := fun _ _ => True)
      (fun _ event holds _ => holds.step event) start fun _ _ => trivial
  constructor
  · intro point member back
    exact (point.1.step_effect point.2).round_mono (sound point member).nodes back
  · intro point _ x xMember y yMember
    exact (point.1.step_effect point.2).one_broadcast xMember yMember
  · exact (sends_pairwise start events (Or.inl ⟨rfl, rfl⟩)).imp fun related x xMember y yMember =>
      related x xMember y yMember
  · exact (sends_pairwise start events (Or.inr ⟨rfl, rfl⟩)).imp
      fun related x xMember y yMember xSent ySent =>
        Nat.ne_of_lt (related x xMember y yMember xSent ySent)
  · intro point member pr before
    rcases (point.1.step_effect point.2).preparedState with ⟨same, -⟩ | ⟨_, -, fires, now, -⟩
    · exact ⟨pr, Nat.le_refl _, same.trans before⟩
    · exact ⟨_, (((sound point member).prepared fires.undecided).2 pr before).2, now⟩
  · intro point member undecided pr now
    exact ((((sound point member).step point.2).prepared undecided).2 pr now).2

open FourPeers in
omit [Crypto] in
/-- A peer that takes part in the first round and is carried to the second one. -/
theorem run_movesForward_fourPeers :
    letI := constantCrypto
    MovesForward (Machine.trace step (new definition transport attesterDuty 2 [7])
      [receive (vote .prePrepare 0 1 9), receive (vote .prepare 0 1 9),
        receive (vote .prepare 1 1 9), receive (vote .prepare 2 1 9),
        receive (changeTo 0 2), receive (changeTo 1 2), .timeout]) :=
  letI := constantCrypto
  run_movesForward (d := definition) (by decide) transport attesterDuty 2 [7] _

end QBFTConsensus

end DvSpec.Consensus
