import DvSpec.Consensus.NetworkSafety
import DvSpec.Library.Decree

/-!
# The network decides one value

Seen through the decisions of its peers, a fault-free network without duplication is
agreement on one value: each event leaves the decisions as they are or lets one peer
decide, and a decision is never taken back.
-/

namespace DvSpec.Consensus

open DvSpec.Library
open QBFTConsensus

namespace Network

variable [Crypto]

omit [Crypto] in
/-- The value hash each peer of a cluster has decided on. -/
def decisions (nodes : Nat) (n : Network) (p : Nat) : Option Bytes :=
  if p < nodes then (n.cluster.peer p).qCommit.head?.bind QBFTMsg.valueHash else none

/-- The value hashes that the peers of a cluster propose. -/
def ProposedBy (nodes : Nat) (proposal : Nat → Bytes) (valueHash : Bytes) : Prop :=
  ∃ p < nodes, valueHash = hashValue (proposal p)

section State

variable {k : Committee} {proposal : Nat → Bytes} {n : Network} {p : Nat} {event : Event}
  {remaining : List (Nat × QBFTConsensusMsg)}

omit [Crypto] in
theorem decisions_of_undecided {nodes : Nat} (undecided : (n.cluster.peer p).qCommit = []) :
    n.decisions nodes p = none := by
  rw [decisions, undecided]
  exact ite_self none

omit [Crypto] in
theorem decisions_congr {nodes : Nat} {next : Network}
    (same : (next.cluster.peer p).qCommit = (n.cluster.peer p).qCommit) :
    next.decisions nodes p = n.decisions nodes p := by
  rw [decisions, decisions, same]

omit [Crypto] in
theorem exists_commit_of_decisions {nodes : Nat} {valueHash : Bytes}
    (decided : n.decisions nodes p = some valueHash) :
    p < nodes ∧ ∃ j ∈ (n.cluster.peer p).qCommit, j.valueHash = some valueHash := by
  unfold decisions at decided
  split at decided
  · rename_i inside
    obtain ⟨j, first, hash⟩ := Option.bind_eq_some_iff.mp decided
    exact ⟨inside, j, List.mem_of_mem_head? first, hash⟩
  · cases decided

/-- A decision is on a committed value. -/
theorem Sincere.committed_of_decisions (sincere : n.Sincere k proposal)
    (everyone : ∀ p < k.d.nodes, k.Honest p) {valueHash : Bytes}
    (decided : n.decisions k.d.nodes p = some valueHash) :
    ∃ round, (n.cluster.history k).Committed k.system round valueHash := by
  obtain ⟨inside, j, member, hash⟩ := exists_commit_of_decisions decided
  obtain ⟨other, known, committed⟩ := sincere.committed (everyone p inside) member
  cases hash.symm.trans known
  exact ⟨j.round, committed⟩

theorem Sincere.consistent (sincere : n.Sincere k proposal)
    (everyone : ∀ p < k.d.nodes, k.Honest p) : Decree.Consistent (n.decisions k.d.nodes) := by
  intro one two first second here there
  obtain ⟨_, committed⟩ := sincere.committed_of_decisions everyone here
  obtain ⟨_, committedToo⟩ := sincere.committed_of_decisions everyone there
  exact sincere.traffic.core.agreement committed committedToo

/-- An event leaves the decisions as they are or lets its peer decide. -/
theorem Sincere.act_decides (sincere : n.Sincere k proposal)
    (everyone : ∀ p < k.d.nodes, k.Honest p) (honest : k.Honest p)
    (consumes : Consumes n.inFlight p event remaining) :
    (n.act p event remaining).decisions k.d.nodes = n.decisions k.d.nodes ∨
      Decree.Decides (ProposedBy k.d.nodes proposal) (n.decisions k.d.nodes)
        ((n.act p event remaining).decisions k.d.nodes) := by
  have own : ((n.act p event remaining).cluster.peer p).qCommit =
      ((n.cluster.peer p).step event).2.qCommit := by
    change ((n.cluster.step (p, event)).2.peer (p, event).1).qCommit = _
    rw [Cluster.peer_step_self]
  have others : ∀ q ≠ p, (n.act p event remaining).decisions k.d.nodes q =
      n.decisions k.d.nodes q := by
    intro q other
    apply decisions_congr
    change ((n.cluster.step (p, event)).2.peer q).qCommit = _
    rw [Cluster.peer_step_ne other]
  have changed : (n.act p event remaining).decisions k.d.nodes =
      Function.update (n.decisions k.d.nodes) p
        ((n.act p event remaining).decisions k.d.nodes p) := by
    funext q
    rcases eq_or_ne q p with rfl | other
    · rw [Function.update_self]
    · rw [Function.update_of_ne other, others q other]
  by_cases undecided : (n.cluster.peer p).qCommit = []
  · have before := @decisions_of_undecided n p k.d.nodes undecided
    cases after : (n.act p event remaining).decisions k.d.nodes p with
    | none =>
        left
        rw [changed, after, ← before, Function.update_eq_self]
    | some valueHash =>
        right
        have later := sincere.act honest consumes
        obtain ⟨_, committed⟩ := later.committed_of_decisions everyone after
        obtain ⟨proposer, isPeer, origin⟩ := later.proposed_of_committed committed
        have agrees : ∀ q made, n.decisions k.d.nodes q = some made → made = valueHash := by
          intro q made decided
          have other : q ≠ p := by
            rintro rfl
            cases before.symm.trans decided
          exact later.consistent everyone q p made valueHash
            ((others q other).trans decided) after
        rw [changed, after]
        exact Decree.Decides.decide before ⟨proposer, isPeer.1, origin⟩ agrees
  · left
    have kept := ((n.cluster.peer p).step_effect event).qCommit_of_decided undecided
    rw [changed, decisions_congr (own.trans kept), Function.update_eq_self]

theorem Sincere.step_decides (sincere : n.Sincere k proposal)
    (everyone : ∀ p < k.d.nodes, k.Honest p) {next : Network} (step : Step k.d.nodes n next) :
    next.decisions k.d.nodes = n.decisions k.d.nodes ∨
      Decree.Decides (ProposedBy k.d.nodes proposal) (n.decisions k.d.nodes)
        (next.decisions k.d.nodes) := by
  cases step with
  | deliver delivers =>
      cases delivers with
      | deliver inside split =>
          exact sincere.act_decides everyone (everyone _ inside) (.delivery split)
  | drop split => exact Or.inl rfl
  | timeout inside => exact sincere.act_decides everyone (everyone _ inside) .timeout

/-- The decisions along a run are a run of decisions. -/
theorem Sincere.refines (sincere : n.Sincere k proposal)
    (everyone : ∀ p < k.d.nodes, k.Honest p) {next : Network}
    (continued : Relation.ReflTransGen (Step k.d.nodes) n next) :
    Relation.ReflTransGen (Decree.Decides (ProposedBy k.d.nodes proposal))
      (n.decisions k.d.nodes) (next.decisions k.d.nodes) :=
  Machine.reachable_simulates (I := fun n => n.Sincere k proposal)
    (fun _ _ sincere step => sincere.step everyone step)
    (fun _ _ sincere step => sincere.step_decides everyone step) sincere continued

end State

/-! ## Runs -/

/-- Every run of the network is a run of agreement on one proposed value, in which nobody has
decided at first. -/
theorem refines_decree {d : Definition} (nodes : 0 < d.nodes) (duty : Duty)
    (transport : Nat → Transport) (proposal : Nat → Bytes) {n : Network}
    (reached : Relation.ReflTransGen (Step d.nodes) (start d duty transport proposal) n) :
    Relation.ReflTransGen (Decree.Decides (ProposedBy d.nodes proposal)) (fun _ => none)
      (n.decisions d.nodes) := by
  have undecided : (start d duty transport proposal).decisions d.nodes = fun _ => none :=
    funext fun p => decisions_of_undecided rfl
  rw [← undecided]
  exact (sincere_reachable nodes Relation.ReflTransGen.refl).refines
    (k := Committee.faultFree d duty nodes)
    (fun _ inside => honest_faultFree duty nodes inside) reached

omit [Crypto] in
/-- One of four peers has decided on the proposal of the leader. -/
theorem refines_decree_fourPeers :
    letI := constantCrypto
    (FourPeersNetwork.delivered 29).decisions 4 0 = some FourPeers.proposalHash ∧
      (FourPeersNetwork.delivered 29).decisions 4 1 = none ∧
      Relation.ReflTransGen (Decree.Decides (ProposedBy 4 fun p => [7 + p.toUInt8]))
        (fun _ => none) ((FourPeersNetwork.delivered 29).decisions 4) := by
  refine ⟨by decide +kernel, by decide +kernel, ?_⟩
  let := constantCrypto
  exact refines_decree (d := FourPeers.definition) (by decide) FourPeers.attesterDuty
    (fun _ => FourPeers.transport) (fun p => [7 + p.toUInt8])
    ((FourPeersNetwork.reached_delivered 29).lift id fun _ _ => Step.deliver)

/-- A decision stands in every later state, and no later decision differs from it. -/
theorem decision_final {d : Definition} (nodes : 0 < d.nodes) (duty : Duty)
    (transport : Nat → Transport) (proposal : Nat → Bytes) {n next : Network}
    (reached : Relation.ReflTransGen (Step d.nodes) (start d duty transport proposal) n)
    (continued : Relation.ReflTransGen (Step d.nodes) n next) {p : Nat} {valueHash : Bytes}
    (decided : n.decisions d.nodes p = some valueHash) :
    next.decisions d.nodes p = some valueHash ∧
      ∀ q other, next.decisions d.nodes q = some other → other = valueHash := by
  have everyone : ∀ p < d.nodes, (Committee.faultFree d duty nodes).Honest p :=
    fun _ inside => honest_faultFree duty nodes inside
  have sincere := sincere_reachable nodes reached
  exact Decree.stands_of_reaches (sincere.consistent everyone)
    (sincere.refines everyone continued) decided

/-- Three peers time out after one has decided, which answers their ROUND-CHANGE messages. -/
def FourPeersNetwork.timedOut : Network :=
  letI := constantCrypto
  (FourPeersNetwork.delivered 29).scheduled FourPeers.definition.nodes
    ([1, 2, 3].map .timeout ++ List.replicate 40 .deliver)

omit [Crypto] in
/-- The decision of the first peer stands, and the others adopt it. -/
theorem decision_final_fourPeers :
    FourPeersNetwork.timedOut.decisions 4 3 ≠ none ∧
      FourPeersNetwork.timedOut.decisions 4 0 = some FourPeers.proposalHash ∧
      ∀ q other, FourPeersNetwork.timedOut.decisions 4 q = some other →
        other = FourPeers.proposalHash := by
  refine ⟨by decide +kernel, ?_⟩
  let := constantCrypto
  exact decision_final (d := FourPeers.definition) (by decide) FourPeers.attesterDuty
    (fun _ => FourPeers.transport) (fun p => [7 + p.toUInt8])
    ((FourPeersNetwork.reached_delivered 29).lift id fun _ _ => Step.deliver)
    (reached_scheduled _ _ _) (by decide +kernel)

end Network

end DvSpec.Consensus
