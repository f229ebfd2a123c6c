import DvSpec.Consensus.Definition
import Mathlib.Data.Nat.ModEq
import Mathlib.Order.Interval.Finset.Nat

/-!
# Quorum and leader arithmetic

What the roundings of the quorum size and of the fault bound are for: quorums meet
outside any tolerated set of peers, the other peers still form a quorum, and the rounds
pass leadership on to one of them in time.
-/

namespace DvSpec.Consensus.Definition

variable {d : Definition}

/-- Fewer peers are faulty than there are peers. -/
theorem faulty_lt_nodes (nodes : 0 < d.nodes) : d.faulty < d.nodes := by
  unfold faulty
  omega

/-- The peers that are not faulty still form a quorum. -/
theorem quorum_add_faulty_le : (d.quorum : Int) + d.faulty ≤ d.nodes := by
  unfold quorum faulty
  omega

/-- Two quorums share a peer outside a tolerated set. -/
theorem quorums_share {byzantine first second : Finset Nat}
    (few : (byzantine.card : Int) ≤ d.faulty) (firstPeers : first ⊆ Finset.range d.nodes)
    (secondPeers : second ⊆ Finset.range d.nodes) (firstSize : d.quorum ≤ first.card)
    (secondSize : d.quorum ≤ second.card) : ∃ peer ∈ first, peer ∈ second ∧ peer ∉ byzantine := by
  obtain ⟨peer, inFirst, inSecond, -, honest⟩ :=
    (d.quorumSystem byzantine few).share ⟨firstPeers, firstSize⟩ ⟨secondPeers, secondSize⟩
  exact ⟨peer, inFirst, inSecond, honest⟩

theorem quorum_le_card_sdiff {byzantine : Finset Nat}
    (few : (byzantine.card : Int) ≤ d.faulty) :
    d.quorum ≤ (Finset.range d.nodes \ byzantine).card := by
  have removed := Finset.le_card_sdiff byzantine (Finset.range d.nodes)
  have enough := quorum_add_faulty_le (d := d)
  rw [Finset.card_range] at removed
  omega

/-- Leadership passes to another peer in every round until all have led. -/
theorem leader_injOn (duty : Duty) (start : Nat) :
    Set.InjOn (fun later => d.leader duty (start + later)) (Finset.range d.nodes) := by
  intro one inside other alsoInside equal
  have bound := Finset.mem_range.mp (Finset.mem_coe.mp inside)
  have otherBound := Finset.mem_range.mp (Finset.mem_coe.mp alsoInside)
  simp only [leader, ← Nat.add_assoc] at equal
  have congruent := Nat.ModEq.add_left_cancel' _ (show Nat.ModEq d.nodes _ _ from equal)
  rwa [Nat.ModEq, Nat.mod_eq_of_lt bound, Nat.mod_eq_of_lt otherBound] at congruent

/-- As many consecutive rounds as there are faulty peers, and one more, reach a leader
outside any tolerated set. -/
theorem exists_leader_notMem (nodes : 0 < d.nodes) {byzantine : Finset Nat}
    (few : (byzantine.card : Int) ≤ d.faulty) (duty : Duty) (start : Nat) :
    ∃ later : Nat, (later : Int) ≤ d.faulty ∧ d.leader duty (start + later) ∉ byzantine := by
  have nonneg := faulty_nonneg nodes
  have fewer := faulty_lt_nodes nodes
  obtain ⟨bound, bound_eq⟩ := Int.eq_ofNat_of_zero_le nonneg
  have window : Finset.range (bound + 1) ⊆ Finset.range d.nodes :=
    Finset.range_subset_range.mpr (by omega)
  have leaders : ((Finset.range (bound + 1)).image fun later =>
      d.leader duty (start + later)).card = bound + 1 := by
    rw [Finset.card_image_of_injOn, Finset.card_range]
    exact (leader_injOn duty start).mono (Finset.coe_subset.mpr window)
  have more : byzantine.card < ((Finset.range (bound + 1)).image fun later =>
      d.leader duty (start + later)).card := by
    rw [leaders]
    omega
  obtain ⟨leader, among, honest⟩ := Finset.exists_mem_notMem_of_card_lt_card more
  obtain ⟨later, inside, rfl⟩ := Finset.mem_image.mp among
  have within := Finset.mem_range.mp inside
  exact ⟨later, by omega, honest⟩

theorem existsUnique_leader (nodes : 0 < d.nodes) (duty : Duty) (roundNum : Nat) :
    ∃! peer, peer < d.nodes ∧ d.isLeader duty roundNum peer = .ok true := by
  refine ⟨d.leader duty roundNum, ⟨leader_lt nodes duty roundNum, ?_⟩, ?_⟩
  · exact isLeader_eq_true_iff.mpr ⟨nodes, rfl⟩
  · rintro peer ⟨-, leads⟩
    exact (isLeader_eq_true_iff.mp leads).2.symm

/-- What safety and liveness take from the quorum size, the fault bound and the election. -/
structure Tolerates (d : Definition) (duty : Duty) (byzantine : Finset Nat) : Prop where
  share : ∀ first second : Finset Nat, first ⊆ Finset.range d.nodes →
    second ⊆ Finset.range d.nodes → d.quorum ≤ first.card → d.quorum ≤ second.card →
    ∃ peer ∈ first, peer ∈ second ∧ peer ∉ byzantine
  available : d.quorum ≤ (Finset.range d.nodes \ byzantine).card
  elects : ∀ roundNum, ∃! peer, peer < d.nodes ∧ d.isLeader duty roundNum peer = .ok true
  rotates : ∀ start : Nat, ∃ roundNum : Nat, start ≤ roundNum ∧ (roundNum : Int) ≤ start + d.faulty ∧
    ∃ peer < d.nodes, peer ∉ byzantine ∧ d.isLeader duty roundNum peer = .ok true

/-- A cluster of any size tolerates every set of at most `faulty` peers. -/
theorem tolerates_of_card_le_faulty (d : Definition) (nodes : 1 ≤ d.nodes) (duty : Duty)
    (byzantine : Finset Nat) (few : (byzantine.card : Int) ≤ d.faulty) :
    Tolerates d duty byzantine where
  share _ _ firstPeers secondPeers := quorums_share few firstPeers secondPeers
  available := quorum_le_card_sdiff few
  elects := existsUnique_leader nodes duty
  rotates start := by
    obtain ⟨later, bounded, honest⟩ := exists_leader_notMem nodes few duty start
    refine ⟨start + later, Nat.le_add_right _ _, by omega, d.leader duty (start + later),
      leader_lt nodes duty _, honest, ?_⟩
    exact isLeader_eq_true_iff.mpr ⟨nodes, rfl⟩

theorem tolerates_of_card_le_faulty_five :
    Tolerates ⟨5⟩ ⟨7, .attester⟩ {3} :=
  tolerates_of_card_le_faulty ⟨5⟩ (by decide) ⟨7, .attester⟩ {3} (by decide)

end DvSpec.Consensus.Definition
