import DvSpec.Consensus.Cluster

/-!
# Agreement

Two honest peers decide the same value in every run in which no count reaches a
quorum by repeated votes, no peer takes up two proposals of one round, and every
DECIDED message lists a COMMIT for its value first.
-/

namespace DvSpec.Consensus

open DvSpec.Library
open QBFTConsensus

namespace Cluster

variable [Crypto]

/-- The COMMITs with which a message can trigger an unrecorded deciding rule are counted by
sender, and the first entry of the decision is for its value. -/
structure CountsCommits (s : QBFTConsensus) (consensusMsg : QBFTConsensusMsg) : Prop where
  tally : consensusMsg.msg.type = .commit → consensusMsg.msg.round = s.round →
    s.dedupRules.contains (.quorumCommits, s.round) = false →
    ¬ QuorumByRepetition s.d.quorum
      (votesFor .commit s.round consensusMsg.msg.valueHash (s.received consensusMsg).allMsg)
  decided : consensusMsg.msg.type = .decided →
    s.dedupRules.contains (.justifiedDecided, s.round) = false →
    ¬ QuorumByRepetition s.d.quorum
      (votesFor .commit consensusMsg.msg.round consensusMsg.msg.valueHash
        consensusMsg.justification)
  first : consensusMsg.msg.type = .decided →
    s.dedupRules.contains (.justifiedDecided, s.round) = false → ∀ first more,
    consensusMsg.justification = first :: more → first.valueHash = consensusMsg.msg.valueHash

/-- A step in which no defect of the counts or of the deduplication is used. -/
structure SafeStep (c : Cluster) (action : Nat × Event) : Prop where
  senders : c.StepCountsSenders action
  single : c.SingleProposal action
  commits : ∀ consensusMsg, action.2 = .receive consensusMsg →
    (c.peer action.1).Accepts consensusMsg → CountsCommits (c.peer action.1) consensusMsg

omit [Crypto] in
/-- Honest peers that decided did so for the same value hash. -/
def Agreement (k : Committee) (c : Cluster) : Prop :=
  ∀ p q, k.Honest p → k.Honest q → ∀ first more first' more',
    (c.peer p).qCommit = first :: more → (c.peer q).qCommit = first' :: more' →
    first.valueHash = first'.valueHash

omit [Crypto] in
/-- A decision stands for a committed value. -/
def DecisionsCommitted (k : Committee) (c : Cluster) : Prop :=
  ∀ p, k.Honest p → ∀ first more, (c.peer p).qCommit = first :: more →
    ∃ round valueHash, first.valueHash = some valueHash ∧
      (c.history k).Committed k.system round valueHash

section Step

variable {k : Committee} {c : Cluster} {action : Nat × Event}

omit [Crypto] in
/-- COMMITs of a quorum of senders are for some value, which is committed. -/
theorem Core.committed_of_counted (core : c.Core k) {messages : List QBFTMsg}
    (authentic : ∀ j ∈ messages, c.Authentic k j) {round : Nat} {valueHash : Option Bytes}
    (enough : k.d.quorum ≤ (senders (votesFor .commit round valueHash messages)).card) :
    ∃ value, valueHash = some value ∧ (c.history k).Committed k.system round value := by
  have isQuorum := isQuorum_senders
    (fun j member => authentic j (mem_votesFor.mp member).1) enough
  obtain ⟨who, member, -, honest⟩ := k.system.share isQuorum isQuorum
  obtain ⟨j, among, rfl⟩ := mem_senders.mp member
  obtain ⟨inside, type, -, hash⟩ := mem_votesFor.mp among
  obtain ⟨m, sent, sameType, -, sameHash, -⟩ := (authentic j inside).sent honest
  have commit : m.msg.type ≠ .roundChange := by
    rw [sameType, type]
    decide
  obtain ⟨value, known⟩ :=
    (core.ledger _ (k.honest_iff.mp honest)).value m sent commit
  have voted : valueHash = some value := hash.symm.trans (sameHash.symm.trans known)
  subst voted
  exact ⟨value, rfl, quorum_votes authentic enough⟩

/-- A new decision stands for a committed value. -/
theorem Core.committed_of_fires (core : c.Core k) (legal : c.Legal k action)
    (safe : c.SafeStep action) {consensusMsg : QBFTConsensusMsg} {rule : UponRule}
    (received : action.2 = .receive consensusMsg)
    (deciding : rule = .quorumCommits ∨ rule = .justifiedDecided)
    {first : QBFTMsg} {more : List QBFTMsg}
    (fires : (c.peer action.1).Fires consensusMsg rule (first :: more)) :
    ∃ round valueHash, first.valueHash = some valueHash ∧
      (c.history k).Committed k.system round valueHash := by
  have config := (core.config _ legal.1).1
  have distinct := safe.commits consensusMsg received fires.toAccepts
  rcases deciding with rfl | rfl
  · obtain ⟨type, current, chosen, counted⟩ := fires.classified
    rw [chosen, d_received] at counted
    have enough := quorum_of_not_repetition (distinct.tally type current fires.fresh) counted
    rw [config] at enough
    obtain ⟨value, known, committed⟩ :=
      core.committed_of_counted (core.authentic_received legal received) enough
    have member : first ∈ votesFor .commit ((c.peer action.1).received consensusMsg).round
        consensusMsg.msg.valueHash ((c.peer action.1).received consensusMsg).allMsg := by
      rw [← chosen]
      exact List.mem_cons_self
    exact ⟨_, value, (mem_votesFor.mp member).2.2.2.trans known, committed⟩
  · obtain ⟨type, chosen⟩ := fires.classified
    have justified := fires.justified
    rw [isJustified_decided type, Except.ok.injEq, isJustifiedDecided_iff] at justified
    have enough := quorum_of_not_repetition (distinct.decided type fires.fresh) justified.2
    rw [config] at enough
    have authentic : ∀ j ∈ consensusMsg.justification, c.Authentic k j := fun j member =>
      legal.2 consensusMsg received j (List.mem_cons_of_mem _ member)
    obtain ⟨value, known, committed⟩ := core.committed_of_counted authentic enough
    exact ⟨_, value, (distinct.first type fires.fresh first more chosen.symm).trans known, committed⟩

theorem DecisionsCommitted.step (decisions : c.DecisionsCommitted k) (core : c.Core k)
    (legal : c.Legal k action) (safe : c.SafeStep action) :
    (c.step action).2.DecisionsCommitted k := by
  intro p honest first more decided
  rcases eq_or_ne p action.1 with rfl | other
  · rw [peer_step_self] at decided
    rcases ((c.peer action.1).step_effect action.2).qCommit with
      same | ⟨consensusMsg, rule, received, deciding, fires⟩
    · obtain ⟨round, value, known, committed⟩ :=
        decisions _ honest first more (same.symm.trans decided)
      exact ⟨round, value, known, committed_step committed⟩
    · rw [decided] at fires
      obtain ⟨round, value, known, committed⟩ :=
        core.committed_of_fires legal safe received deciding fires
      exact ⟨round, value, known, committed_step committed⟩
  · rw [peer_step_ne other] at decided
    obtain ⟨round, value, known, committed⟩ := decisions p honest first more decided
    exact ⟨round, value, known, committed_step committed⟩

omit [Crypto] in
theorem Core.agree (core : c.Core k) (decisions : c.DecisionsCommitted k) : c.Agreement k := by
  intro p q pHonest qHonest first more first' more' pDecided qDecided
  obtain ⟨round, value, known, committed⟩ := decisions p pHonest first more pDecided
  obtain ⟨round', value', known', committed'⟩ := decisions q qHonest first' more' qDecided
  rw [known, known', core.agreement committed committed']

end Step

/-! ## Steps that use no defect -/

/-- A message that uses no defect: a proposal of the first round before any PREPARE, a vote whose
tally counts senders, or a ROUND-CHANGE. -/
def PlainVote (s : QBFTConsensus) (sent : List QBFTConsensusMsg)
    (consensusMsg : QBFTConsensusMsg) : MsgType → Prop
  | .prePrepare => consensusMsg.msg.round = 1 ∧ ∀ m ∈ sent, m.msg.type ≠ .prepare
  | .prepare => ¬ QuorumByRepetition s.d.quorum
      (votesFor .prepare s.round consensusMsg.msg.valueHash (s.received consensusMsg).allMsg)
  | .commit => ¬ QuorumByRepetition s.d.quorum
      (votesFor .commit s.round consensusMsg.msg.valueHash (s.received consensusMsg).allMsg)
  | .roundChange => True
  | .decided => False

instance (s : QBFTConsensus) (sent : List QBFTConsensusMsg) (consensusMsg : QBFTConsensusMsg) :
    (type : MsgType) → Decidable (PlainVote s sent consensusMsg type)
  | .prePrepare => inferInstanceAs (Decidable (_ ∧ ∀ m ∈ sent, _))
  | .prepare => inferInstanceAs (Decidable (¬ (_ < _ ∧ _ ≤ _)))
  | .commit => inferInstanceAs (Decidable (¬ (_ < _ ∧ _ ≤ _)))
  | .roundChange => isTrue trivial
  | .decided => isFalse id

/-- A legal step that delivers such a message. -/
def PlainStep (k : Committee) (c : Cluster) (action : Nat × Event) : Prop :=
  k.Honest action.1 ∧
    match action.2 with
    | .timeout => True
    | .receive consensusMsg => (∀ j ∈ votes consensusMsg, c.Authentic k j) ∧
        PlainVote (c.peer action.1) (c.sent action.1) consensusMsg consensusMsg.msg.type

omit [Crypto] in
instance (k : Committee) (c : Cluster) (j : QBFTMsg) : Decidable (c.Authentic k j) :=
  inferInstanceAs (Decidable (_ ∧ (_ → ∃ m ∈ c.sent j.peerIdx, _)))

instance (k : Committee) (c : Cluster) (action : Nat × Event) : Decidable (PlainStep k c action) :=
  match action with
  | (p, .timeout) => inferInstanceAs (Decidable ((p < _ ∧ p ∉ _) ∧ True))
  | (p, .receive consensusMsg) =>
      inferInstanceAs (Decidable ((p < _ ∧ p ∉ _) ∧ (∀ j ∈ votes consensusMsg, c.Authentic k j) ∧
        PlainVote (c.peer p) (c.sent p) consensusMsg consensusMsg.msg.type))

section Plain

variable {k : Committee} {c : Cluster} {action : Nat × Event}

theorem PlainStep.receives (plain : PlainStep k c action) {consensusMsg : QBFTConsensusMsg}
    (received : action.2 = .receive consensusMsg) :
    (∀ j ∈ votes consensusMsg, c.Authentic k j) ∧
      PlainVote (c.peer action.1) (c.sent action.1) consensusMsg consensusMsg.msg.type := by
  have kept := plain.2
  rw [received] at kept
  exact kept

theorem PlainStep.legal (plain : PlainStep k c action) : c.Legal k action :=
  ⟨plain.1, fun _ received => (plain.receives received).1⟩

theorem PlainStep.safe (plain : PlainStep k c action) : c.SafeStep action := by
  have vote : ∀ {consensusMsg type}, action.2 = .receive consensusMsg →
      consensusMsg.msg.type = type →
      PlainVote (c.peer action.1) (c.sent action.1) consensusMsg type :=
    fun received typed => typed ▸ (plain.receives received).2
  constructor
  · intro consensusMsg received _
    constructor
    · exact fun type later => absurd (vote received type).1 (Nat.ne_of_gt later)
    · exact fun type later => absurd (vote received type).1 (Nat.ne_of_gt later)
    · exact fun type _ _ => vote received type
  · rintro round valueHash ⟨consensusMsg, received, -, proposes, -⟩ m member type
    exact absurd type ((vote received proposes).2 m member)
  · intro consensusMsg received _
    constructor
    · exact fun type _ _ => vote received type
    · exact fun type => (vote received type).elim
    · exact fun type => (vote received type).elim

end Plain

/-- Four peers of which the last one is Byzantine. -/
def threeHonestPeers : Committee where
  d := FourPeers.definition
  duty := FourPeers.attesterDuty
  byzantine := {3}
  nodes := by decide
  bound := by decide

/-- The honest peers deliver the first proposal and two rounds of votes to each other; peer 3
meanwhile sends one of them a PREPARE for another value. -/
def decidingRun : List (Nat × Event) :=
  [0, 1, 2].map (fun p => (p, FourPeers.receive (FourPeers.ownVote .prePrepare 0))) ++
    [(0, FourPeers.receive (FourPeers.vote .prepare 3 1 9))] ++
    [0, 1, 2].flatMap (fun q =>
      [0, 1, 2].map fun p => (p, FourPeers.receive (FourPeers.ownVote .prepare q))) ++
    [0, 1, 2].flatMap (fun q =>
      [0, 1].map fun p => (p, FourPeers.receive (FourPeers.ownVote .commit q)))

omit [Crypto] in
theorem plain_decidingRun :
    letI := constantCrypto
    Machine.Along step (PlainStep threeHonestPeers)
      (start threeHonestPeers.d threeHonestPeers.duty (fun _ => FourPeers.transport) fun _ => [7])
      decidingRun := by
  unfold Machine.Along
  decide +kernel

/-! ## Runs -/

/-- Honest peers agree in every state of a legal run whose steps are all safe. -/
theorem run_agreement (k : Committee) (transport : Nat → Transport) (proposal : Nat → Bytes)
    (actions : List (Nat × Event))
    (legal : Machine.Along step (Legal k) (start k.d k.duty transport proposal) actions)
    (safe : Machine.Along step SafeStep (start k.d k.duty transport proposal) actions) :
    Machine.Always step (Agreement k) (start k.d k.duty transport proposal) actions := by
  have invariant : Machine.Always step (fun c => c.Core k ∧ c.DecisionsCommitted k)
      (start k.d k.duty transport proposal) actions := by
    refine Machine.always_invariant (C := fun c action => c.Legal k action ∧ c.SafeStep action)
      ?_ ⟨core_start k transport proposal, ?_⟩ fun point member =>
        ⟨legal point member, safe point member⟩
    · rintro c action ⟨core, decisions⟩ ⟨isLegal, isSafe⟩
      exact ⟨core.step isLegal isSafe.senders isSafe.single,
        decisions.step core isLegal isSafe⟩
    · intro p _ first more decided
      cases decided
  exact invariant.imp fun c holds => holds.1.agree holds.2

omit [Crypto] in
/-- Two honest peers decide in this run, and they agree in all its states. -/
theorem run_agreement_threeHonestPeers :
    letI := constantCrypto
    let c := start threeHonestPeers.d threeHonestPeers.duty (fun _ => FourPeers.transport)
      fun _ => [7]
    Machine.Always step (Agreement threeHonestPeers) c decidingRun ∧
      ((Machine.final step c decidingRun).peer 0).qCommit ≠ [] ∧
      ((Machine.final step c decidingRun).peer 1).qCommit ≠ [] := by
  refine ⟨?_, by decide +kernel, by decide +kernel⟩
  let := constantCrypto
  exact run_agreement threeHonestPeers _ _ _
    (fun point member => (plain_decidingRun point member).legal)
    (fun point member => (plain_decidingRun point member).safe)

/-- One Byzantine peer sends two honest peers decisions for different values. -/
def forgedDecisions : List (Nat × Event) :=
  [(0, .receive (forgedDecision 9)), (1, .receive (forgedDecision 8))]

omit [Crypto] in
/-- One faulty peer out of four makes two honest peers decide differently. -/
theorem forgedDecisions_disagree :
    letI := constantCrypto
    let c := start threeHonestPeers.d threeHonestPeers.duty (fun _ => FourPeers.transport)
      fun _ => [7]
    Machine.Along step (Legal threeHonestPeers) c forgedDecisions ∧
      ¬ Agreement threeHonestPeers (Machine.final step c forgedDecisions) := by
  let := constantCrypto
  have forged : ∀ byte, ∀ c : Cluster, ∀ j ∈ votes (forgedDecision byte),
      c.Authentic threeHonestPeers j := by
    intro byte c j member
    have byzantine : j.peerIdx = 3 := by
      rcases List.mem_cons.mp member with rfl | inside
      · rfl
      · rw [List.eq_of_mem_replicate inside]
        rfl
    refine ⟨by rw [byzantine]; decide, fun honest => ?_⟩
    rw [byzantine] at honest
    exact absurd honest (by decide)
  refine ⟨?_, fun agree => ?_⟩
  · refine Machine.along_cons.mpr ⟨⟨⟨by decide, by decide⟩, ?_⟩,
      Machine.along_cons.mpr ⟨⟨⟨by decide, by decide⟩, ?_⟩, Machine.along_nil⟩⟩
    · rintro _ ⟨⟩
      exact forged 9 _
    · rintro _ ⟨⟩
      exact forged 8 _
  · have same := agree 0 1 ⟨by decide, by decide⟩ ⟨by decide, by decide⟩ _ _ _ _ rfl rfl
    exact absurd same (by decide +kernel)

end Cluster

end DvSpec.Consensus
