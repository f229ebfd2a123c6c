import DvSpec.Consensus.Certificates
import DvSpec.Consensus.Equivocation
import DvSpec.Consensus.Ledger

/-!
# A cluster of instances

The instances of the honest peers for one duty and everything each of them has
sent.  A peer receives any message whose honest votes were really sent, in any
order and any number of times; the votes of Byzantine peers are arbitrary.
-/

namespace DvSpec.Consensus

open DvSpec.Library
open QBFTConsensus

/-- The parameters of a cluster, with its Byzantine peers. -/
structure Committee where
  d : Definition
  duty : Duty
  byzantine : Finset Nat
  nodes : 0 < d.nodes
  bound : (byzantine.card : Int) ≤ d.faulty

/-- A peer of the cluster that runs the protocol. -/
def Committee.Honest (k : Committee) (p : Nat) : Prop := p < k.d.nodes ∧ p ∉ k.byzantine

/-- Any two quorums share an honest peer. -/
def Committee.system (k : Committee) : QuorumSystem Nat :=
  k.d.quorumSystem k.byzantine k.bound

theorem Committee.honest_iff (k : Committee) {p : Nat} : k.system.Honest p ↔ k.Honest p :=
  and_congr_left' Finset.mem_range

/-- The instances of a cluster and what each peer has sent. -/
structure Cluster where
  peer : Nat → QBFTConsensus
  sent : Nat → List QBFTConsensusMsg

/-- The content a signature covers. -/
def QBFTMsg.unsigned (msg : QBFTMsg) : QBFTMsg := { msg with signature := none }

/-- Two messages differ at most in their signatures. -/
structure SameContent (first second : QBFTMsg) : Prop where
  type : first.type = second.type
  duty : first.duty = second.duty
  peerIdx : first.peerIdx = second.peerIdx
  round : first.round = second.round
  preparedRound : first.preparedRound = second.preparedRound
  valueHash : first.valueHash = second.valueHash
  preparedValueHash : first.preparedValueHash = second.preparedValueHash

theorem sameContent_of_unsigned {first second : QBFTMsg}
    (same : first.unsigned = second.unsigned) : SameContent first second := by
  have fields : SameContent first.unsigned second.unsigned := by
    rw [same]
    exact ⟨rfl, rfl, rfl, rfl, rfl, rfl, rfl⟩
  exact ⟨fields.type, fields.duty, fields.peerIdx, fields.round, fields.preparedRound,
    fields.valueHash, fields.preparedValueHash⟩

namespace Cluster

variable [Crypto]

/-- The cluster at the start: the leader of the first round has announced its proposal. -/
def start (d : Definition) (duty : Duty) (transport : Nat → Transport) (proposal : Nat → Bytes) :
    Cluster where
  peer p := new d (transport p) duty p (proposal p)
  sent p :=
    if p = d.leader duty 1 then
      outgoing ((new d (transport p) duty p (proposal p)).t.broadcastPrePrepare duty p 1
        (hashValue (proposal p)) [])
    else []

/-- An event at one peer. -/
def step (c : Cluster) (action : Nat × Event) : List QBFTConsensusMsg × Cluster :=
  let outcome := (c.peer action.1).step action.2
  (outgoing outcome.1,
    { peer := Function.update c.peer action.1 outcome.2
      sent := Function.update c.sent action.1 (c.sent action.1 ++ outgoing outcome.1) })

omit [Crypto] in
/-- A vote was sent by the peer it names. -/
def WasSent (c : Cluster) (j : QBFTMsg) : Prop :=
  ∃ m ∈ c.sent j.peerIdx, m.msg.unsigned = j.unsigned

omit [Crypto] in
/-- A vote of a peer of the cluster, really sent by it when it is honest. -/
def Authentic (k : Committee) (c : Cluster) (j : QBFTMsg) : Prop :=
  j.peerIdx < k.d.nodes ∧ (j.peerIdx ∉ k.byzantine → c.WasSent j)

omit [Crypto] in
/-- An event that the network and the Byzantine peers can bring about. -/
def Legal (k : Committee) (c : Cluster) (action : Nat × Event) : Prop :=
  k.Honest action.1 ∧
    ∀ consensusMsg, action.2 = .receive consensusMsg →
      ∀ j ∈ votes consensusMsg, c.Authentic k j

/-! ## Votes -/

omit [Crypto] in
/-- A peer has sent a vote for a value. -/
def Votes (c : Cluster) (type : MsgType) (p round : Nat) (valueHash : Bytes) : Prop :=
  ∃ m ∈ c.sent p, m.msg.type = type ∧ m.msg.round = round ∧ m.msg.valueHash = some valueHash

omit [Crypto] in
/-- A peer has sent a ROUND-CHANGE that reports a prepared round. -/
def Changes (c : Cluster) (p round reported : Nat) : Prop :=
  ∃ m ∈ c.sent p, m.msg.type = .roundChange ∧ m.msg.round = round ∧
    m.msg.preparedRound = reported

omit [Crypto] in
/-- The votes of a cluster in the abstract; a value is taken up by the PREPARE of an
honest peer. -/
def history (k : Committee) (c : Cluster) : VotingHistory Nat Bytes where
  proposed round valueHash := ∃ p, k.Honest p ∧ c.Votes .prepare p round valueHash
  prepare := c.Votes .prepare
  commit := c.Votes .commit
  roundChange := c.Changes

section Step

variable {k : Committee} {c : Cluster} {action : Nat × Event}

@[simp]
theorem peer_step_self :
    (c.step action).2.peer action.1 = ((c.peer action.1).step action.2).2 :=
  Function.update_self _ _ _

theorem peer_step_ne {p : Nat} (other : p ≠ action.1) :
    (c.step action).2.peer p = c.peer p := Function.update_of_ne other _ _

@[simp]
theorem sent_step_self : (c.step action).2.sent action.1 =
    c.sent action.1 ++ sentAt (c.peer action.1, action.2) := Function.update_self _ _ _

theorem sent_step_ne {p : Nat} (other : p ≠ action.1) :
    (c.step action).2.sent p = c.sent p := Function.update_of_ne other _ _

/-- Logs only grow. -/
theorem sent_step_subset (p : Nat) : c.sent p ⊆ (c.step action).2.sent p := by
  rcases eq_or_ne p action.1 with rfl | other
  · rw [sent_step_self]
    exact List.subset_append_left _ _
  · rw [sent_step_ne other]
    exact List.Subset.refl _

/-- A message in a log after a step is old or was sent in the step. -/
theorem mem_sent_step {p : Nat} {m : QBFTConsensusMsg}
    (member : m ∈ (c.step action).2.sent p) :
    m ∈ c.sent p ∨ p = action.1 ∧ m ∈ sentAt (c.peer action.1, action.2) := by
  rcases eq_or_ne p action.1 with rfl | other
  · rw [sent_step_self] at member
    exact (List.mem_append.mp member).imp_right fun new => ⟨rfl, new⟩
  · rw [sent_step_ne other] at member
    exact Or.inl member

theorem Votes.step {type : MsgType} {p round : Nat} {valueHash : Bytes}
    (voted : c.Votes type p round valueHash) :
    (c.step action).2.Votes type p round valueHash := by
  obtain ⟨m, member, voted⟩ := voted
  exact ⟨m, sent_step_subset p member, voted⟩

theorem Changes.step {p round reported : Nat} (changed : c.Changes p round reported) :
    (c.step action).2.Changes p round reported := by
  obtain ⟨m, member, changed⟩ := changed
  exact ⟨m, sent_step_subset p member, changed⟩

theorem Authentic.step {j : QBFTMsg} (authentic : c.Authentic k j) :
    (c.step action).2.Authentic k j := by
  refine ⟨authentic.1, fun honest => ?_⟩
  obtain ⟨m, member, same⟩ := authentic.2 honest
  exact ⟨m, sent_step_subset _ member, same⟩

theorem prepared_step {round : Nat} {valueHash : Bytes}
    (prepared : (c.history k).Prepared k.system round valueHash) :
    ((c.step action).2.history k).Prepared k.system round valueHash :=
  prepared.mono Votes.step

theorem committed_step {round : Nat} {valueHash : Bytes}
    (committed : (c.history k).Committed k.system round valueHash) :
    ((c.step action).2.history k).Committed k.system round valueHash :=
  committed.mono Votes.step

theorem certified_step {round : Nat} {valueHash : Bytes}
    (certified : (c.history k).Certified k.system round valueHash) :
    ((c.step action).2.history k).Certified k.system round valueHash :=
  certified.mono Votes.step Changes.step

end Step

/-! ## From counted votes to quorums -/

section Counting

variable {k : Committee} {c : Cluster}

omit [Crypto] in
/-- What an authentic vote of an honest peer says was sent by that peer. -/
theorem Authentic.sent {j : QBFTMsg} (authentic : c.Authentic k j)
    (honest : k.system.Honest j.peerIdx) :
    ∃ m ∈ c.sent j.peerIdx, m.msg.type = j.type ∧ m.msg.round = j.round ∧
      m.msg.valueHash = j.valueHash ∧ m.msg.preparedRound = j.preparedRound := by
  obtain ⟨m, member, unsigned⟩ := authentic.2 honest.2
  have same := sameContent_of_unsigned unsigned
  exact ⟨m, member, same.type, same.round, same.valueHash, same.preparedRound⟩

omit [Crypto] in
theorem isQuorum_senders {messages : List QBFTMsg}
    (authentic : ∀ j ∈ messages, c.Authentic k j)
    (enough : k.d.quorum ≤ (senders messages).card) :
    k.system.IsQuorum (senders messages) := by
  refine ⟨fun p member => ?_, enough⟩
  obtain ⟨j, among, rfl⟩ := mem_senders.mp member
  exact Finset.mem_range.mpr (authentic j among).1

omit [Crypto] in
/-- A quorum of senders of authentic votes is a quorum whose honest members voted. -/
theorem quorum_votes {type : MsgType} {round : Nat} {valueHash : Bytes} {messages : List QBFTMsg}
    (authentic : ∀ j ∈ messages, c.Authentic k j)
    (enough : k.d.quorum ≤ (senders (votesFor type round (some valueHash) messages)).card) :
    ∃ quorum, k.system.IsQuorum quorum ∧ ∀ who ∈ quorum, k.system.Honest who →
      c.Votes type who round valueHash := by
  refine ⟨_, isQuorum_senders (fun j member => authentic j (mem_votesFor.mp member).1) enough, ?_⟩
  intro who member honest
  obtain ⟨j, among, rfl⟩ := mem_senders.mp member
  obtain ⟨inside, type, round, hash⟩ := mem_votesFor.mp among
  obtain ⟨m, sent, sameType, sameRound, sameHash, -⟩ := (authentic j inside).sent honest
  exact ⟨m, sent, sameType.trans type, sameRound.trans round, sameHash.trans hash⟩

omit [Crypto] in
/-- A quorum of senders of authentic ROUND-CHANGE messages is a quorum of reports. -/
theorem quorum_changes {round pr : Nat} {messages : List QBFTMsg}
    (authentic : ∀ j ∈ messages, c.Authentic k j)
    (enough : k.d.quorum ≤ (senders (roundChangesFor round messages)).card)
    (bounded : ∀ rc ∈ roundChangesFor round messages, rc.preparedRound ≤ pr) :
    ∃ quorum, k.system.IsQuorum quorum ∧ ∀ who ∈ quorum, k.system.Honest who →
      ∃ reported ≤ pr, c.Changes who round reported := by
  refine ⟨_,
    isQuorum_senders (fun j member => authentic j (mem_roundChangesFor.mp member).1) enough, ?_⟩
  intro who member honest
  obtain ⟨j, among, rfl⟩ := mem_senders.mp member
  obtain ⟨inside, type, round⟩ := mem_roundChangesFor.mp among
  obtain ⟨m, sent, sameType, sameRound, -, reported⟩ := (authentic j inside).sent honest
  exact ⟨j.preparedRound, bounded j among, m, sent, sameType.trans type, sameRound.trans round,
    reported⟩

end Counting

/-! ## Conditions on one step -/

/-- The counts with which a proposal or a PREPARE can trigger an unrecorded rule reach no
quorum by repetition; a null-prepared proposal counts no PREPAREs. -/
structure CountsSenders (s : QBFTConsensus) (consensusMsg : QBFTConsensusMsg) : Prop where
  changes : consensusMsg.msg.type = .prePrepare → 1 < consensusMsg.msg.round →
    s.round ≤ consensusMsg.msg.round →
    s.dedupRules.contains (.justifiedPrePrepare, s.round) = false →
    ¬ QuorumByRepetition s.d.quorum
      (roundChangesFor consensusMsg.msg.round consensusMsg.justification)
  prepares : consensusMsg.msg.type = .prePrepare → 1 < consensusMsg.msg.round →
    s.round ≤ consensusMsg.msg.round →
    s.dedupRules.contains (.justifiedPrePrepare, s.round) = false →
    ¬ AllNonePrepared consensusMsg.msg.round consensusMsg.justification →
    ∀ pr, ¬ QuorumByRepetition s.d.quorum
      (votesFor .prepare pr consensusMsg.msg.valueHash consensusMsg.justification)
  tally : consensusMsg.msg.type = .prepare → consensusMsg.msg.round = s.round →
    s.dedupRules.contains (.quorumPrepares, s.round) = false →
    ¬ QuorumByRepetition s.d.quorum
      (votesFor .prepare s.round consensusMsg.msg.valueHash (s.received consensusMsg).allMsg)

/-- Every accepted message of the action counts senders. -/
def StepCountsSenders (c : Cluster) (action : Nat × Event) : Prop :=
  ∀ consensusMsg, action.2 = .receive consensusMsg →
    (c.peer action.1).Accepts consensusMsg → CountsSenders (c.peer action.1) consensusMsg

/-- A proposal is not taken up for a round in which the peer sent a PREPARE for another
value. -/
def SingleProposal (c : Cluster) (action : Nat × Event) : Prop :=
  ∀ round valueHash, TakesUp (c.peer action.1, action.2) round valueHash →
    ∀ m ∈ c.sent action.1, m.msg.type = .prepare → m.msg.round = round →
      m.msg.valueHash = some valueHash

/-! ## The invariant of a cluster -/

/-- What holds in a cluster whose steps count senders. -/
structure Core (k : Committee) (c : Cluster) : Prop where
  config : ∀ p, k.Honest p →
    (c.peer p).d = k.d ∧ (c.peer p).duty = k.duty ∧ (c.peer p).peer = p
  ledger : ∀ p, k.Honest p → (c.peer p).Ledger (c.sent p)
  authentic : ∀ p, k.Honest p → ∀ j ∈ (c.peer p).allMsg, c.Authentic k j
  /-- A COMMIT follows a quorum of PREPAREs. -/
  commit_prepared : ∀ p, k.Honest p → ∀ {round valueHash}, c.Votes .commit p round valueHash →
    (c.history k).Prepared k.system round valueHash
  /-- A PREPARE after the first round follows a certified proposal. -/
  prepare_certified : ∀ p, k.Honest p → ∀ {round valueHash},
    c.Votes .prepare p round valueHash → 1 < round →
    (c.history k).Certified k.system round valueHash
  /-- A peer prepares one value per round. -/
  prepare_unique : ∀ p, k.Honest p → ∀ {round first second}, c.Votes .prepare p round first →
    c.Votes .prepare p round second → first = second

section Preservation

variable {k : Committee} {c : Cluster} {action : Nat × Event}

/-- The votes of an accepted message are authentic together with the buffered ones. -/
theorem Core.authentic_received (core : c.Core k) (legal : c.Legal k action)
    {consensusMsg : QBFTConsensusMsg} (received : action.2 = .receive consensusMsg) :
    ∀ j ∈ ((c.peer action.1).received consensusMsg).allMsg, c.Authentic k j := by
  intro j member
  rcases mem_allMsg_bufferMessage.mp member with old | new
  · exact core.authentic _ legal.1 j old
  · exact legal.2 consensusMsg received j new

/-- A PREPARE quorum that sends a COMMIT prepares its value. -/
theorem Core.prepared_of_commit (core : c.Core k) (legal : c.Legal k action)
    (counts : c.StepCountsSenders action) {copy : QBFTConsensusMsg}
    (sent : copy ∈ sentAt (c.peer action.1, action.2)) (type : copy.msg.type = .commit)
    {valueHash : Bytes} (voted : copy.msg.valueHash = some valueHash) :
    (c.history k).Prepared k.system copy.msg.round valueHash := by
  obtain ⟨consensusMsg, prepares, hash, received, fires, known, built, -⟩ :=
    (sends_of_mem_sentAt sent).of_commit type
  cases built.valueHash_eq.symm.trans voted
  obtain ⟨prepare, current, rfl, counted⟩ := fires.classified
  have distinct :=
    (counts consensusMsg received fires.toAccepts).tally prepare current fires.fresh
  have config := (core.config _ legal.1).1
  rw [known] at distinct
  rw [d_received, known] at counted
  have enough := quorum_of_not_repetition distinct counted
  rw [config] at enough
  rw [built.round_eq]
  exact quorum_votes (core.authentic_received legal received) enough

omit [Crypto] in
/-- A justification whose counts stand for quorums of senders certifies the value it
selects. -/
theorem Core.certified_of_justification (core : c.Core k) {justification : List QBFTMsg}
    (authentic : ∀ j ∈ justification, c.Authentic k j) {round : Nat} {valueHash : Bytes}
    (later : 1 < round)
    (changes : k.d.quorum ≤ (senders (roundChangesFor round justification)).card)
    (value : AllNonePrepared round justification ∨
      ∃ pr, SelectsPrepared k.d.quorum round justification pr valueHash ∧
        k.d.quorum ≤ (senders (votesFor .prepare pr (some valueHash) justification)).card) :
    (c.history k).Certified k.system round valueHash := by
  rcases value with none | ⟨pr, ⟨-, -, bounded, rc, member, reports, -⟩, voters⟩
  · refine ⟨0, Nat.lt_trans Nat.zero_lt_one later, quorum_changes authentic changes ?_,
      Or.inl rfl⟩
    exact fun rc member => Nat.le_of_eq (QBFTMsg.nonePrepared_iff.mp (none rc member)).1
  · have prepared : (c.history k).Prepared k.system pr valueHash :=
      quorum_votes authentic voters
    have within : pr ≤ round := by
      rw [← reports, ← (mem_roundChangesFor.mp member).2.2]
      exact rc.preparedRound_le
    rcases Nat.eq_or_lt_of_le within with same | earlier
    · -- the value was prepared in this very round: reuse the certificate of a voter
      obtain ⟨quorum, isQuorum, voted⟩ := prepared
      obtain ⟨who, inside, -, honest⟩ := k.system.share isQuorum isQuorum
      subst same
      exact core.prepare_certified who (k.honest_iff.mp honest) (voted who inside honest) later
    · exact ⟨pr, earlier, quorum_changes authentic changes bounded, Or.inr prepared⟩

/-- A proposal that is taken up after the first round is certified. -/
theorem Core.certified_of_takesUp (core : c.Core k) (legal : c.Legal k action)
    (counts : c.StepCountsSenders action) {round : Nat} {valueHash : Bytes}
    (takes : TakesUp (c.peer action.1, action.2) round valueHash) (later : 1 < round) :
    (c.history k).Certified k.system round valueHash := by
  obtain ⟨consensusMsg, received, accepts, type, rfl, hashed, notPast, fresh⟩ := takes
  have config : (c.peer action.1, action.2).1.d = k.d := (core.config _ legal.1).1
  have distinct := counts consensusMsg received accepts
  have authentic : ∀ j ∈ consensusMsg.justification, c.Authentic k j := fun j member =>
    legal.2 consensusMsg received j (List.mem_cons_of_mem _ member)
  have justified := accepts.justified
  rw [isJustified_prePrepare type, isJustifiedPrePrepare_iff] at justified
  obtain ⟨-, -, -, first | ⟨counted, value⟩⟩ := justified
  · exact absurd first (Nat.ne_of_gt later)
  · have changes := quorum_of_not_repetition (distinct.changes type later notPast fresh) counted
    rw [config] at changes value
    refine core.certified_of_justification authentic later changes ?_
    by_cases none : AllNonePrepared consensusMsg.msg.round consensusMsg.justification
    · exact Or.inl none
    · obtain ⟨pr, pv, selects, chosen⟩ := value.resolve_left none
      cases hashed.symm.trans chosen
      have tally := distinct.prepares type later notPast fresh none pr
      rw [hashed, show (c.peer action.1).d = k.d from config] at tally
      exact Or.inr ⟨pr, selects, quorum_of_not_repetition tally selects.2.1⟩

/-- A legal step that counts senders and takes up one proposal per round keeps the
invariant. -/
theorem Core.step (core : c.Core k) (legal : c.Legal k action)
    (counts : c.StepCountsSenders action) (single : c.SingleProposal action) :
    (c.step action).2.Core k := by
  constructor
  · intro p honest
    rcases eq_or_ne p action.1 with rfl | other
    · have config := core.config _ honest
      have same := step_sameConfig (c.peer action.1) action.2
      rw [peer_step_self, same.d, same.duty, same.peer]
      exact config
    · rw [peer_step_ne other]
      exact core.config p honest
  · intro p honest
    rcases eq_or_ne p action.1 with rfl | other
    · rw [peer_step_self, sent_step_self]
      exact (core.ledger _ honest).step action.2
    · rw [peer_step_ne other, sent_step_ne other]
      exact core.ledger p honest
  · intro p honest j member
    rcases eq_or_ne p action.1 with rfl | other
    · rw [peer_step_self] at member
      rcases ((c.peer action.1).step_effect action.2).buffer with
        same | ⟨consensusMsg, received, -, same⟩
      · rw [allMsg_congr same] at member
        exact (core.authentic _ honest j member).step
      · rw [allMsg_congr same] at member
        exact (core.authentic_received legal received j member).step
    · rw [peer_step_ne other] at member
      exact (core.authentic p honest j member).step
  · rintro p honest round valueHash ⟨m, member, type, rfl, hash⟩
    rcases mem_sent_step member with old | ⟨rfl, new⟩
    · exact prepared_step (core.commit_prepared p honest ⟨m, old, type, rfl, hash⟩)
    · exact prepared_step (core.prepared_of_commit legal counts new type hash)
  · rintro p honest round valueHash ⟨m, member, type, rfl, hash⟩ later
    rcases mem_sent_step member with old | ⟨rfl, new⟩
    · exact certified_step (core.prepare_certified p honest ⟨m, old, type, rfl, hash⟩ later)
    · obtain ⟨valueHash', takes, hash'⟩ := takesUp_of_mem_sentAt new type
      cases hash.symm.trans hash'
      exact certified_step (core.certified_of_takesUp legal counts takes later)
  · rintro p honest round first second ⟨m, member, type, rfl, hash⟩
      ⟨m', member', type', same, hash'⟩
    rcases mem_sent_step member with old | ⟨rfl, new⟩
    · rcases mem_sent_step member' with old' | ⟨rfl, new'⟩
      · exact core.prepare_unique p honest ⟨m, old, type, rfl, hash⟩ ⟨m', old', type', same, hash'⟩
      · obtain ⟨valueHash, takes, agreed⟩ := takesUp_of_mem_sentAt new' type'
        have before := single _ _ takes m old type same.symm
        cases hash'.symm.trans agreed
        exact Option.some.inj (hash.symm.trans before)
    · rcases mem_sent_step member' with old' | ⟨-, new'⟩
      · obtain ⟨valueHash, takes, agreed⟩ := takesUp_of_mem_sentAt new type
        have before := single _ _ takes m' old' type' same
        cases hash.symm.trans agreed
        exact Option.some.inj (before.symm.trans hash')
      · cases ((c.peer action.1).step_effect action.2).one_broadcast new new'
        exact Option.some.inj (hash.symm.trans hash')

omit [Crypto] in
/-- The honest votes of a cluster obey the laws of voting in rounds. -/
theorem Core.lawful (core : c.Core k) : (c.history k).Lawful k.system := by
  constructor
  · intro who round value honest voted
    exact ⟨who, k.honest_iff.mp honest, voted⟩
  · rintro who round value - ⟨m, -, -, rfl, -⟩
    exact m.msg.round_pos
  · rintro who round later value reported honest ⟨m, member, commit, rfl, -⟩
      ⟨rc, change, type, rfl, rfl⟩ after
    exact (core.ledger who (k.honest_iff.mp honest)).commit_reported m member commit rc change type
      after
  · rintro round value ⟨p, honest, voted⟩ later
    exact core.prepare_certified p honest voted later
  · rintro round value other ⟨quorum, isQuorum, commits⟩ prepared
    obtain ⟨who, member, -, honest⟩ := k.system.share isQuorum isQuorum
    obtain ⟨first, isFirst, firstVotes⟩ :=
      core.commit_prepared who (k.honest_iff.mp honest) (commits who member honest)
    obtain ⟨second, isSecond, secondVotes⟩ := prepared
    obtain ⟨voter, inFirst, inSecond, sincere⟩ := k.system.share isFirst isSecond
    exact core.prepare_unique voter (k.honest_iff.mp sincere) (firstVotes voter inFirst sincere)
      (secondVotes voter inSecond sincere)

omit [Crypto] in
/-- Two committed values of a cluster are equal. -/
theorem Core.agreement (core : c.Core k) {first second : Nat} {value other : Bytes}
    (firstCommitted : (c.history k).Committed k.system first value)
    (secondCommitted : (c.history k).Committed k.system second other) : value = other :=
  core.lawful.agreement
    (fun honest voted => core.commit_prepared _ (k.honest_iff.mp honest) voted)
    firstCommitted secondCommitted

end Preservation

/-! ## The start of a cluster -/

section Start

variable {d : Definition} {duty : Duty} {transport : Nat → Transport} {proposal : Nat → Bytes}

/-- At the start only the leader of the first round has sent its own proposal. -/
theorem mem_sent_start {p : Nat} {m : QBFTConsensusMsg}
    (member : m ∈ (start d duty transport proposal).sent p) :
    p = d.leader duty 1 ∧ m.justification = [] ∧
      Transport.Built m.msg .prePrepare duty p 1 (some (hashValue (proposal p))) 0 zeroHash := by
  change m ∈ (if p = d.leader duty 1 then _ else []) at member
  split at member
  · rename_i leader
    obtain ⟨built, justification, -⟩ :=
      Transport.mem_broadcastMessage (eq_ok_of_mem_outgoing member) member
    exact ⟨leader, justification, built⟩
  · cases member

theorem ledger_start (nodes : 0 < d.nodes) (p : Nat) :
    ((start d duty transport proposal).peer p).Ledger
      ((start d duty transport proposal).sent p) := by
  have proposals : ∀ m ∈ (start d duty transport proposal).sent p,
      Transport.Built m.msg .prePrepare duty p 1 (some (hashValue (proposal p))) 0 zeroHash :=
    fun m member => (mem_sent_start member).2.2
  constructor
  · exact sound_new nodes _ _ _ _
  · exact fun m member => ⟨(proposals m member).duty_eq, (proposals m member).peerIdx_eq⟩
  · exact fun m member _ => ⟨_, (proposals m member).valueHash_eq⟩
  · exact fun _ m member => Nat.le_of_eq (proposals m member).round_eq
  · intro m member type
    cases (proposals m member).type_eq.symm.trans type
  · intro m member type
    cases (proposals m member).type_eq.symm.trans type
  · intro m member type
    cases (proposals m member).type_eq.symm.trans type
  · intro m member type
    cases (proposals m member).type_eq.symm.trans type
  · intro m member _ later
    exact absurd (proposals m member).round_eq (Nat.ne_of_gt later)

theorem not_votes_start {type : MsgType} {p round : Nat} {valueHash : Bytes}
    (vote : type ≠ .prePrepare) :
    ¬ (start d duty transport proposal).Votes type p round valueHash := by
  rintro ⟨m, member, typed, -⟩
  exact vote (typed.symm.trans (mem_sent_start member).2.2.type_eq)

theorem core_start (k : Committee) (transport : Nat → Transport) (proposal : Nat → Bytes) :
    (start k.d k.duty transport proposal).Core k := by
  constructor
  · exact fun p _ => ⟨rfl, rfl, rfl⟩
  · exact fun p _ => ledger_start k.nodes p
  · intro p _ j member
    have empty : ((start k.d k.duty transport proposal).peer p).allMsg = [] := rfl
    rw [empty] at member
    cases member
  · exact fun p _ _ _ voted => absurd voted (not_votes_start (by decide))
  · exact fun p _ _ _ voted => absurd voted (not_votes_start (by decide))
  · exact fun p _ _ _ _ voted => absurd voted (not_votes_start (by decide))

end Start

end Cluster

end DvSpec.Consensus
