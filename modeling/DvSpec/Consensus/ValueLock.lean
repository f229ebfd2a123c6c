import DvSpec.Consensus.Traffic

/-!
# The value lock across rounds

In a fault-free cluster whose network duplicates nothing, a value that a quorum
committed is the only one proposed, prepared or committed from that round on,
whatever is delayed, reordered or dropped and whoever times out.
-/

namespace DvSpec.Consensus

open DvSpec.Library
open QBFTConsensus

namespace Network

variable [Crypto] {k : Committee} {n : Network}

/-! ## Runs of the network -/

theorem traffic_start (leads : k.Honest (k.d.leader k.duty 1)) (transport : Nat → Transport)
    (proposal : Nat → Bytes) : (start k.d k.duty transport proposal).Traffic k := by
  have announced : ∀ m, Logged k (Cluster.start k.d k.duty transport proposal) m →
      m.msg.type = .prePrepare ∧ m.msg.round = 1 ∧ m.justification = [] := by
    rintro m ⟨p, -, member⟩
    obtain ⟨-, justification, built⟩ := Cluster.mem_sent_start member
    exact ⟨built.type_eq, built.round_eq, justification⟩
  have empty : ∀ p, ((Cluster.start k.d k.duty transport proposal).peer p).buffered = [] :=
    fun _ => rfl
  constructor
  · exact Cluster.core_start k transport proposal
  · exact fun entry member => ⟨_, leads, mem_of_mem_addressed member⟩
  · intro p _ m member
    rw [show ((start k.d k.duty transport proposal).cluster.peer p).buffered = [] from empty p]
      at member
    cases member
  · intro m logged j member
    rw [(announced m logged).2.2] at member
    cases member
  · intro m logged
    obtain ⟨-, round, none⟩ := announced m logged
    exact wellFormed_of_nil none fun _ => round
  · intro p _ j member
    cases member
  · intro p _
    constructor
    · intro j member
      cases member
    · intro j member
      cases member
  · intro p _ type _ peer round
    apply Nat.le_trans List.countP_le_length
    rw [pending, start, empty, List.nil_append, bound_addressed]
    exact Option.length_toList_le
  · intro p honest m member type
    cases (announced m ⟨p, honest, member⟩).1.symm.trans type
  · intro p _ m member _
    obtain ⟨leader, -, built⟩ := Cluster.mem_sent_start member
    rw [built.round_eq, leader]
  · intro p _ m member m' member' _ _ _
    rw [(Cluster.mem_sent_start member).2.2.valueHash_eq,
      (Cluster.mem_sent_start member').2.2.valueHash_eq]

omit [Crypto] in
theorem Traffic.drop (traffic : n.Traffic k) {before after : List (Nat × QBFTConsensusMsg)}
    {entry : Nat × QBFTConsensusMsg} (split : n.inFlight = before ++ entry :: after) :
    ({ n with inFlight := before ++ after } : Network).Traffic k := by
  have fewer : (before ++ after).Sublist n.inFlight := by
    rw [split]
    exact List.Sublist.append_left (List.sublist_cons_self _ _) _
  refine { traffic with
    flight := fun entry member => traffic.flight entry (fewer.subset member)
    once := fun p honest type vote peer round => ?_ }
  have bounded := traffic.once p honest type vote peer round
  have less : (bound p (before ++ after)).countP (carries type peer round) ≤
      (bound p n.inFlight).countP (carries type peer round) := (bound_sublist fewer).countP_le
  simp only [pending, List.countP_append] at bounded ⊢
  omega

theorem Traffic.step (traffic : n.Traffic k) {next : Network} (honest : ∀ p < k.d.nodes, k.Honest p)
    (step : Step k.d.nodes n next) : next.Traffic k := by
  cases step with
  | deliver delivers =>
      cases delivers with
      | deliver inside split => exact traffic.act (honest _ inside) (.delivery split)
  | drop split => exact traffic.drop split
  | timeout inside => exact traffic.act (honest _ inside) .timeout

omit [Crypto] in
theorem honest_faultFree {d : Definition} (duty : Duty) (nodes : 0 < d.nodes) {p : Nat}
    (inside : p < d.nodes) : (Committee.faultFree d duty nodes).Honest p :=
  ⟨inside, Finset.notMem_empty p⟩

/-- Every reachable state of a fault-free network has its traffic in order. -/
theorem traffic_reachable {d : Definition} {duty : Duty} (nodes : 0 < d.nodes)
    {transport : Nat → Transport} {proposal : Nat → Bytes}
    (reached : Relation.ReflTransGen (Step d.nodes) (start d duty transport proposal) n) :
    n.Traffic (Committee.faultFree d duty nodes) :=
  Machine.reachable_invariant (I := fun n => n.Traffic (Committee.faultFree d duty nodes))
    (fun _ _ traffic step =>
      traffic.step (k := Committee.faultFree d duty nodes)
        (fun _ inside => honest_faultFree duty nodes inside) step)
    (traffic_start (k := Committee.faultFree d duty nodes)
      (honest_faultFree duty nodes (Definition.leader_lt nodes duty 1)) transport proposal)
    reached

/-! ## The lock -/

omit [Crypto] in
/-- Some peer stands behind a prepared value, and the leader proposed it. -/
theorem Traffic.proposed_of_prepared (traffic : n.Traffic k) {round : Nat} {valueHash : Bytes}
    (prepared : (n.cluster.history k).Prepared k.system round valueHash) :
    ∃ m, Logged k n.cluster m ∧ m.msg.type = .prePrepare ∧ m.msg.round = round ∧
      m.msg.valueHash = some valueHash := by
  obtain ⟨quorum, isQuorum, votes⟩ := prepared
  obtain ⟨who, inside, -, honest⟩ := k.system.share isQuorum isQuorum
  obtain ⟨m, sent, type, round, hash⟩ := votes who inside honest
  obtain ⟨proposal, buffered, proposes, sameRound, sameHash⟩ :=
    traffic.answered who (k.honest_iff.mp honest) m sent type
  exact ⟨proposal, traffic.buffered who (k.honest_iff.mp honest) proposal buffered, proposes,
    sameRound.trans round, sameHash.trans hash⟩

omit [Crypto] in
/-- A PRE-PREPARE of a later round is certified. -/
theorem Traffic.certified (traffic : n.Traffic k) {m : QBFTConsensusMsg}
    (logged : Logged k n.cluster m) (type : m.msg.type = .prePrepare) (later : 1 < m.msg.round)
    {valueHash : Bytes} (hash : m.msg.valueHash = some valueHash) :
    (n.cluster.history k).Certified k.system m.msg.round valueHash := by
  have shape := traffic.wellFormed m logged
  obtain ⟨changes, value⟩ := shape.certificate type later
  refine traffic.core.certified_of_justification (traffic.authentic m logged) later changes
    (value.imp_right ?_)
  rintro ⟨pr, pv, selects, chosen⟩
  cases hash.symm.trans chosen
  have positive := Nat.lt_of_lt_of_le (Definition.quorum_pos k.nodes) selects.2.1
  obtain ⟨j, member⟩ := List.exists_mem_of_length_pos positive
  obtain ⟨inside, prepare, round, voted⟩ := mem_votesFor.mp member
  have enough := shape.prepares j inside prepare
  rw [round, voted] at enough
  exact ⟨pr, selects, enough⟩

omit [Crypto] in
/-- From the round of a committed value on, only that value is proposed. -/
theorem Traffic.proposal_locked (traffic : n.Traffic k) {round : Nat} {valueHash : Bytes}
    (committed : (n.cluster.history k).Committed k.system round valueHash)
    {m : QBFTConsensusMsg} (logged : Logged k n.cluster m) (type : m.msg.type = .prePrepare)
    (after : round ≤ m.msg.round) : m.msg.valueHash = some valueHash := by
  obtain ⟨honest, sent⟩ := traffic.logged_header logged
  obtain ⟨other, hash⟩ := (traffic.core.ledger _ honest).value m sent (by rw [type]; decide)
  have positive := traffic.core.lawful.committed_pos committed
  rcases Nat.eq_or_lt_of_le after with same | later
  · obtain ⟨quorum, isQuorum, commits⟩ := committed
    obtain ⟨who, inside, -, voter⟩ := k.system.share isQuorum isQuorum
    have prepared := traffic.core.commit_prepared who (k.honest_iff.mp voter)
      (commits who inside voter)
    obtain ⟨proposal, logged', type', round', hash'⟩ := traffic.proposed_of_prepared prepared
    obtain ⟨honest', sent'⟩ := traffic.logged_header logged'
    have here : proposal.msg.round = m.msg.round := round'.trans same
    have leader := traffic.proposer _ honest m sent type
    have leader' := traffic.proposer _ honest' proposal sent' type'
    rw [here, leader] at leader'
    rw [← leader'] at sent'
    exact (traffic.proposal_unique _ honest m sent proposal sent' type type' here.symm).trans hash'
  · have certified := traffic.certified logged type (by omega) hash
    rw [hash, traffic.core.lawful.certified_locked committed later certified]

/-- Once a quorum has committed a value in a round, everything proposed, prepared or
committed from that round on carries this value. -/
theorem value_lock {d : Definition} (nodes : 0 < d.nodes) (duty : Duty)
    (transport : Nat → Transport) (proposal : Nat → Bytes)
    (reached : Relation.ReflTransGen (Step d.nodes) (start d duty transport proposal) n)
    {round : Nat} {valueHash : Bytes} {peers : Finset Nat}
    (inside : peers ⊆ Finset.range d.nodes) (quorum : d.quorum ≤ peers.card)
    (commits : ∀ p ∈ peers, n.cluster.Votes .commit p round valueHash) :
    ∀ p < d.nodes, ∀ m ∈ n.cluster.sent p,
      m.msg.type = .prePrepare ∨ m.msg.type = .prepare ∨ m.msg.type = .commit →
      round ≤ m.msg.round → m.msg.valueHash = some valueHash := by
  have traffic := traffic_reachable nodes reached
  have committed : (n.cluster.history (Committee.faultFree d duty nodes)).Committed
      (Committee.faultFree d duty nodes).system round valueHash :=
    ⟨peers, ⟨inside, quorum⟩, fun p member _ => commits p member⟩
  have proposals : ∀ {m}, Logged (Committee.faultFree d duty nodes) n.cluster m →
      m.msg.type = .prePrepare → round ≤ m.msg.round → m.msg.valueHash = some valueHash :=
    fun logged type after => traffic.proposal_locked committed logged type after
  intro p inRange m sent type after
  have honest := honest_faultFree duty nodes inRange
  rcases type with proposes | prepare | commit
  · exact proposals ⟨p, honest, sent⟩ proposes after
  · obtain ⟨proposal, buffered, proposes, sameRound, sameHash⟩ :=
      traffic.answered p honest m sent prepare
    rw [← sameHash]
    exact proposals (traffic.buffered p honest proposal buffered) proposes (by omega)
  · obtain ⟨other, hash⟩ := (traffic.core.ledger p honest).value m sent (by rw [commit]; decide)
    have prepared := traffic.core.commit_prepared p honest ⟨m, sent, commit, rfl, hash⟩
    obtain ⟨proposal, logged, proposes, sameRound, sameHash⟩ :=
      traffic.proposed_of_prepared prepared
    rw [hash, ← sameHash]
    exact proposals logged proposes (by omega)

/-! ## A cluster of four peers -/

namespace FourPeersNetwork

/-- Peers with different proposals, peer 0 leading the first round. -/
def network : Network :=
  letI := constantCrypto
  Network.start FourPeers.definition FourPeers.attesterDuty (fun _ => FourPeers.transport)
    fun p => [7 + p.toUInt8]

/-- All peers prepare the first proposal and commit it, but their COMMITs are lost and they time
out; the leader of the second round gathers their ROUND-CHANGE messages and proposes. -/
def lostCommits : List Choice :=
  List.replicate 20 .deliver ++ List.replicate 16 .drop ++
    [0, 1, 2, 3].map .timeout ++ List.replicate 20 .deliver

/-- The second round has been proposed and prepared. -/
def secondRound : Network :=
  letI := constantCrypto
  network.scheduled FourPeers.definition.nodes lostCommits

omit [Crypto] in
theorem reached_secondRound :
    letI := constantCrypto
    Relation.ReflTransGen (Step FourPeers.definition.nodes) network secondRound := by
  let := constantCrypto
  exact reached_scheduled _ _ _

end FourPeersNetwork

omit [Crypto] in
/-- The leader of the second round has a proposal of its own, yet it proposes the value that was
committed in the first, and another peer prepares it. -/
theorem value_lock_fourPeers :
    let n := FourPeersNetwork.secondRound
    (∃ m ∈ n.cluster.sent 1, m.msg.type = .prePrepare ∧ m.msg.round = 2) ∧
      (∃ m ∈ n.cluster.sent 3, m.msg.type = .prepare ∧ m.msg.round = 2) ∧
      (∀ p ∈ Finset.range 4, n.cluster.Votes .commit p 1 FourPeers.proposalHash) ∧
      ∀ p < 4, ∀ m ∈ n.cluster.sent p,
        m.msg.type = .prePrepare ∨ m.msg.type = .prepare ∨ m.msg.type = .commit →
        1 ≤ m.msg.round → m.msg.valueHash = some FourPeers.proposalHash := by
  have commits : ∀ p ∈ Finset.range 4,
      FourPeersNetwork.secondRound.cluster.Votes .commit p 1 FourPeers.proposalHash := by
    unfold Cluster.Votes
    decide +kernel
  refine ⟨by decide +kernel, by decide +kernel, commits, ?_⟩
  let := constantCrypto
  exact value_lock (d := FourPeers.definition) (by decide) FourPeers.attesterDuty
    (fun _ => FourPeers.transport) (fun p => [7 + p.toUInt8])
    FourPeersNetwork.reached_secondRound (Finset.Subset.refl _) (by decide) commits

end Network

end DvSpec.Consensus
