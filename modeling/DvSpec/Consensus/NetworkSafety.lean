import DvSpec.Consensus.Agreement
import DvSpec.Consensus.HappyPath
import DvSpec.Consensus.ValueLock

/-!
# Safety of a network without duplication

Whatever a fault-free network delays, reorders or drops and whoever times out, the
decisions of a cluster are COMMITs of a quorum of peers for one value, and some peer
has proposed this value.
-/

namespace DvSpec.Consensus

open DvSpec.Library
open QBFTConsensus

/-! ## Counted COMMITs -/

/-- Every COMMIT among some votes comes with a quorum of senders for its round and value. -/
def CountedCommits (k : Committee) (messages : List QBFTMsg) : Prop :=
  ∀ j ∈ messages, j.type = .commit →
    k.d.quorum ≤ (senders (votesFor .commit j.round j.valueHash messages)).card

theorem countedCommits_of_none {k : Committee} {messages : List QBFTMsg}
    (none : ∀ j ∈ messages, j.type ≠ .commit) : CountedCommits k messages :=
  fun j member type => absurd type (none j member)

/-- A tally of COMMITs that a quorum of senders has sent is counted. -/
theorem countedCommits_votesFor {k : Committee} {round : Nat} {valueHash : Option Bytes}
    {messages : List QBFTMsg}
    (enough : k.d.quorum ≤ (senders (votesFor .commit round valueHash messages)).card) :
    CountedCommits k (votesFor .commit round valueHash messages) := by
  intro j member _
  obtain ⟨-, -, sameRound, sameHash⟩ := mem_votesFor.mp member
  rw [sameRound, sameHash, votesFor_eq_self fun vote inside => (mem_votesFor.mp inside).2]
  exact enough

/-- A justified quorum of ROUND-CHANGE messages contains no COMMIT. -/
theorem not_commit_of_mem_justifiedQrc {s : QBFTConsensus} {round : Nat}
    {justified : List QBFTMsg} (found : s.justifiedQrc round = some justified) {j : QBFTMsg}
    (member : j ∈ justified) : j.type ≠ .commit := by
  intro type
  rcases justifiedQrc_cases found with ⟨rfl, -⟩ | ⟨-, pr, pv, changes, prepares, rfl, spec⟩
  · cases (mem_nullChangesFor.mp member).2.1.symm.trans type
  · rcases List.mem_append.mp member with change | prepare
    · cases (mem_roundChangesFor.mp (spec.mem_changes j change).1).2.1.symm.trans type
    · cases (mem_votesFor.mp (spec.mem_prepares j prepare)).2.1.symm.trans type

namespace Network

variable [Crypto]

/-- What decisions and proposals rest on in a network without duplication. -/
structure Sincere (k : Committee) (proposal : Nat → Bytes) (n : Network) : Prop where
  traffic : n.Traffic k
  decided : ∀ p, k.Honest p → CountedCommits k (n.cluster.peer p).qCommit
  announced : ∀ m, Logged k n.cluster m → CountedCommits k m.justification
  own : ∀ p, k.Honest p → (n.cluster.peer p).proposalValue = proposal p
  proposed : ∀ m, Logged k n.cluster m → m.msg.type = .prePrepare →
    ∃ p, k.Honest p ∧ m.msg.valueHash = some (hashValue (proposal p))

section State

variable {k : Committee} {proposal : Nat → Bytes} {n : Network} {p : Nat} {event : Event}
  {remaining : List (Nat × QBFTConsensusMsg)}

/-! ## One event -/

/-- The decision of a peer after an event is counted. -/
theorem Sincere.decided_step (sincere : n.Sincere k proposal) (honest : k.Honest p)
    (consumes : Consumes n.inFlight p event remaining) :
    CountedCommits k ((n.cluster.peer p).step event).2.qCommit := by
  have traffic := sincere.traffic
  rcases ((n.cluster.peer p).step_effect event).qCommit with
    same | ⟨consensusMsg, rule, received, deciding, fires⟩
  · rw [same]
    exact sincere.decided p honest
  · rcases deciding with rfl | rfl
    · obtain ⟨-, -, chosen, counted⟩ := fires.classified
      rw [chosen, d_received, (traffic.core.config p honest).1] at counted
      rw [chosen]
      exact countedCommits_votesFor (quorum_of_not_repetition
        (traffic.votes_distinct honest consumes received (by decide) sincere.announced _ _)
        counted)
    · obtain ⟨-, chosen⟩ := fires.classified
      rw [chosen]
      exact sincere.announced _ (traffic.flight _ (consumes.received received))

/-- The COMMITs in the justification of a sent message are counted. -/
theorem Sincere.sent_counted (sincere : n.Sincere k proposal) (honest : k.Honest p)
    {m : QBFTConsensusMsg} (sent : m ∈ sentAt (n.cluster.peer p, event)) :
    CountedCommits k m.justification := by
  cases sends_of_mem_sentAt sent with
  | decided _ _ _ _ _ _ justification =>
      rw [justification]
      exact sincere.decided p honest
  | prepare _ _ _ _ _ _ justification =>
      rw [justification]
      exact countedCommits_of_none fun j member => nomatch member
  | commit _ _ _ _ _ _ _ justification =>
      rw [justification]
      exact countedCommits_of_none fun j member => nomatch member
  | roundChange _ _ _ _ justification =>
      rw [justification]
      refine countedCommits_of_none fun j member type => ?_
      cases ((sincere.traffic.stored p honest).prepares j member).1.symm.trans type
  | prePrepare consensusMsg received justified fires _ _ _ justification =>
      rw [justification]
      obtain ⟨-, -, found, -⟩ := fires.classified
      exact countedCommits_of_none fun j member => not_commit_of_mem_justifiedQrc found member

/-- A sent PRE-PREPARE repeats a proposal or carries the one of its sender. -/
theorem Sincere.sent_proposed (sincere : n.Sincere k proposal) (honest : k.Honest p)
    (consumes : Consumes n.inFlight p event remaining) {m : QBFTConsensusMsg}
    (sent : m ∈ sentAt (n.cluster.peer p, event)) (type : m.msg.type = .prePrepare) :
    ∃ q, k.Honest q ∧ m.msg.valueHash = some (hashValue (proposal q)) := by
  have traffic := sincere.traffic
  obtain ⟨consensusMsg, justified, valueHash, received, fires, chosen, built, justification, -⟩ :=
    (sends_of_mem_sentAt sent).of_prePrepare type
  have own : valueHash = hashValue (n.cluster.peer p).proposalValue →
      ∃ q, k.Honest q ∧ m.msg.valueHash = some (hashValue (proposal q)) := by
    rintro rfl
    exact ⟨p, honest, by rw [built.valueHash_eq, sincere.own p honest]⟩
  rcases chosen with ⟨-, equal⟩ | ⟨pr, pv, -, equal⟩
  · exact own equal
  · split at equal
    · rename_i enough
      subst equal
      rw [show (n.cluster.peer p, event).1.d = k.d from (traffic.core.config p honest).1]
        at enough
      -- the PREPAREs behind the value come from a quorum, so it was proposed before
      obtain ⟨j, member⟩ := List.exists_mem_of_length_pos
        (Nat.lt_of_lt_of_le (Definition.quorum_pos k.nodes) enough)
      obtain ⟨inside, prepare, round, hash⟩ := mem_votesFor.mp member
      rw [← justification] at inside
      have voters := (traffic.sent_wellFormed honest consumes sent).prepares j inside prepare
      rw [round, hash] at voters
      have prepared : (n.cluster.history k).Prepared k.system pr valueHash :=
        Cluster.quorum_votes (traffic.sent_authentic honest consumes sent) voters
      obtain ⟨earlier, logged, proposes, -, sameHash⟩ := traffic.proposed_of_prepared prepared
      obtain ⟨q, sincereToo, origin⟩ := sincere.proposed earlier logged proposes
      exact ⟨q, sincereToo, built.valueHash_eq.trans (sameHash.symm.trans origin)⟩
    · exact own equal

theorem Sincere.act (sincere : n.Sincere k proposal) (honest : k.Honest p)
    (consumes : Consumes n.inFlight p event remaining) :
    (n.act p event remaining).Sincere k proposal := by
  constructor
  · exact sincere.traffic.act honest consumes
  · intro q other
    rcases eq_or_ne q p with rfl | apart
    · change CountedCommits k ((n.cluster.step (q, event)).2.peer (q, event).1).qCommit
      rw [Cluster.peer_step_self]
      exact sincere.decided_step honest consumes
    · change CountedCommits k ((n.cluster.step (p, event)).2.peer q).qCommit
      rw [Cluster.peer_step_ne apart]
      exact sincere.decided q other
  · intro m logged
    rcases logged.cases_act with old | new
    · exact sincere.announced m old
    · exact sincere.sent_counted honest new
  · intro q other
    rcases eq_or_ne q p with rfl | apart
    · change ((n.cluster.step (q, event)).2.peer (q, event).1).proposalValue = proposal q
      rw [Cluster.peer_step_self]
      exact (step_sameConfig _ _).proposalValue.trans (sincere.own q honest)
    · change ((n.cluster.step (p, event)).2.peer q).proposalValue = proposal q
      rw [Cluster.peer_step_ne apart]
      exact sincere.own q other
  · intro m logged type
    rcases logged.cases_act with old | new
    · exact sincere.proposed m old type
    · exact sincere.sent_proposed honest consumes new type

/-! ## Runs -/

theorem sincere_start (leads : k.Honest (k.d.leader k.duty 1)) (transport : Nat → Transport)
    (proposal : Nat → Bytes) : (start k.d k.duty transport proposal).Sincere k proposal := by
  constructor
  · exact traffic_start leads transport proposal
  · intro p _ j member
    cases member
  · rintro m ⟨p, -, member⟩ j inside
    rw [(Cluster.mem_sent_start member).2.1] at inside
    cases inside
  · exact fun _ _ => rfl
  · rintro m ⟨p, honest, member⟩ _
    exact ⟨p, honest, (Cluster.mem_sent_start member).2.2.valueHash_eq⟩

theorem Sincere.step (sincere : n.Sincere k proposal) {next : Network}
    (honest : ∀ p < k.d.nodes, k.Honest p) (step : Step k.d.nodes n next) :
    next.Sincere k proposal := by
  cases step with
  | deliver delivers =>
      cases delivers with
      | deliver inside split => exact sincere.act (honest _ inside) (.delivery split)
  | drop split => exact { sincere with traffic := sincere.traffic.drop split }
  | timeout inside => exact sincere.act (honest _ inside) .timeout

theorem sincere_reachable {d : Definition} {duty : Duty} (nodes : 0 < d.nodes)
    {transport : Nat → Transport}
    (reached : Relation.ReflTransGen (Step d.nodes) (start d duty transport proposal) n) :
    n.Sincere (Committee.faultFree d duty nodes) proposal :=
  Machine.reachable_invariant
    (I := fun n => n.Sincere (Committee.faultFree d duty nodes) proposal)
    (fun _ _ sincere step => sincere.step (fun _ inside => honest_faultFree duty nodes inside) step)
    (sincere_start (honest_faultFree duty nodes (Definition.leader_lt nodes duty 1)) transport
      proposal)
    reached

/-! ## Decisions -/

/-- A COMMIT in a decision is for a committed value. -/
theorem Sincere.committed (sincere : n.Sincere k proposal) (honest : k.Honest p) {j : QBFTMsg}
    (member : j ∈ (n.cluster.peer p).qCommit) : ∃ valueHash, j.valueHash = some valueHash ∧
      (n.cluster.history k).Committed k.system j.round valueHash :=
  sincere.traffic.core.committed_of_counted
    (fun vote inside => sincere.traffic.stored_authentic p honest vote
      (List.mem_append_left _ inside))
    (sincere.decided p honest j member ((sincere.traffic.stored p honest).commits j member))

/-- A committed value was proposed by some peer as its own. -/
theorem Sincere.proposed_of_committed (sincere : n.Sincere k proposal) {round : Nat}
    {valueHash : Bytes} (committed : (n.cluster.history k).Committed k.system round valueHash) :
    ∃ p, k.Honest p ∧ valueHash = hashValue (proposal p) := by
  obtain ⟨quorum, isQuorum, commits⟩ := committed
  obtain ⟨who, inside, -, honest⟩ := k.system.share isQuorum isQuorum
  have prepared := sincere.traffic.core.commit_prepared who (k.honest_iff.mp honest)
    (commits who inside honest)
  obtain ⟨m, logged, type, -, hash⟩ := sincere.traffic.proposed_of_prepared prepared
  obtain ⟨p, proposer, origin⟩ := sincere.proposed m logged type
  exact ⟨p, proposer, Option.some.inj (hash.symm.trans origin)⟩

end State

/-- In every reachable state all decisions are for the proposal of one peer, and each holds the
COMMITs of a quorum of peers for it. -/
theorem decisions_agree {n : Network} {d : Definition} (nodes : 0 < d.nodes) (duty : Duty)
    (transport : Nat → Transport) (proposal : Nat → Bytes)
    (reached : Relation.ReflTransGen (Step d.nodes) (start d duty transport proposal) n) :
    ∃ p < d.nodes, ∀ q < d.nodes, ∀ j ∈ (n.cluster.peer q).qCommit,
      j.type = .commit ∧ j.valueHash = some (hashValue (proposal p)) ∧
        d.quorum ≤ (senders (votesFor .commit j.round (some (hashValue (proposal p)))
          (n.cluster.peer q).qCommit)).card := by
  have sincere := sincere_reachable nodes reached
  by_cases decided : ∃ q < d.nodes, ∃ j, j ∈ (n.cluster.peer q).qCommit
  · obtain ⟨first, inside, vote, member⟩ := decided
    obtain ⟨valueHash, -, committed⟩ :=
      sincere.committed (honest_faultFree duty nodes inside) member
    obtain ⟨p, proposer, rfl⟩ := sincere.proposed_of_committed committed
    refine ⟨p, proposer.1, fun q within j among => ?_⟩
    have honest := honest_faultFree duty nodes within
    have commit := (sincere.traffic.stored q honest).commits j among
    obtain ⟨other, hash, committedToo⟩ := sincere.committed honest among
    cases sincere.traffic.core.agreement committed committedToo
    have enough := sincere.decided q honest j among commit
    rw [hash] at enough
    exact ⟨commit, hash, enough⟩
  · exact ⟨0, nodes, fun q within j among => absurd ⟨q, within, j, among⟩ decided⟩

/-- After a first round without decision the votes of the second are delivered. -/
def FourPeersNetwork.decidedLater : Network :=
  letI := constantCrypto
  FourPeersNetwork.secondRound.scheduled FourPeers.definition.nodes (List.replicate 32 .deliver)

omit [Crypto] in
theorem FourPeersNetwork.reached_decidedLater :
    letI := constantCrypto
    Relation.ReflTransGen (Step FourPeers.definition.nodes) FourPeersNetwork.network
      FourPeersNetwork.decidedLater := by
  let := constantCrypto
  exact FourPeersNetwork.reached_secondRound.trans (reached_scheduled _ _ _)

omit [Crypto] in
/-- Four peers decide in the second round, for the proposal of one of them. -/
theorem decisions_agree_fourPeers :
    letI := constantCrypto
    (∀ q < 4, (FourPeersNetwork.decidedLater.cluster.peer q).qCommit ≠ []) ∧
      ∃ p < 4, ∀ q < 4, ∀ j ∈ (FourPeersNetwork.decidedLater.cluster.peer q).qCommit,
        j.type = .commit ∧ j.valueHash = some (hashValue [7 + p.toUInt8]) ∧
          3 ≤ (senders (votesFor .commit j.round (some (hashValue [7 + p.toUInt8]))
            (FourPeersNetwork.decidedLater.cluster.peer q).qCommit)).card := by
  refine ⟨by decide +kernel, ?_⟩
  let := constantCrypto
  exact decisions_agree (d := FourPeers.definition) (by decide) FourPeers.attesterDuty
    (fun _ => FourPeers.transport) (fun p => [7 + p.toUInt8])
    FourPeersNetwork.reached_decidedLater

end Network

end DvSpec.Consensus
