import DvSpec.Library.Quorum
import DvSpec.Types.Duty
import Mathlib.Data.Finset.Range

/-!
# QBFT system parameters

Quorum size, fault bound and leader of a round, with the float divisions of the
source read as exact.
-/

namespace DvSpec.Consensus

open DvSpec.Library

/-- QBFT consensus system parameters. -/
structure Definition where
  nodes : Nat
  deriving DecidableEq, Repr

namespace Definition

/-- Quorum size `ceil(2 * nodes / 3)`. -/
def quorum (d : Definition) : Nat := (d.nodes * 2 + 2) / 3

/-- Maximum number of faulty nodes `floor((nodes - 1) / 3)`, which is `-1` without nodes. -/
def faulty (d : Definition) : Int := ((d.nodes : Int) - 1) / 3

/-- Deterministic leader election; the remainder by zero nodes raises. -/
def isLeader (d : Definition) (duty : Duty) (roundNum peer : Nat) : Except PyError Bool :=
  if d.nodes = 0 then .error .zeroDivisionError
  else .ok (decide ((duty.slot + duty.type.toNat + roundNum) % d.nodes = peer))

/-- The peer that `isLeader` accepts. -/
def leader (d : Definition) (duty : Duty) (roundNum : Nat) : Nat :=
  (duty.slot + duty.type.toNat + roundNum) % d.nodes

variable {d : Definition}

theorem quorum_pos (nodes : 0 < d.nodes) : 0 < d.quorum := by
  unfold quorum
  omega

theorem quorum_le_nodes : d.quorum ≤ d.nodes := by
  unfold quorum
  omega

theorem faulty_nonneg (nodes : 0 < d.nodes) : 0 ≤ d.faulty := by
  unfold faulty
  omega

/-- Two quorums overlap in more peers than may be faulty. -/
theorem overlap {dishonest : Nat} (bound : (dishonest : Int) ≤ d.faulty) :
    d.nodes + dishonest < 2 * d.quorum := by
  unfold faulty at bound
  unfold quorum
  omega

theorem isLeader_eq_ok (nodes : 0 < d.nodes) (duty : Duty) (roundNum peer : Nat) :
    d.isLeader duty roundNum peer = .ok (decide (d.leader duty roundNum = peer)) := by
  rw [isLeader, if_neg nodes.ne']
  rfl

theorem isLeader_eq_true_iff {duty : Duty} {roundNum peer : Nat} :
    d.isLeader duty roundNum peer = .ok true ↔
      0 < d.nodes ∧ d.leader duty roundNum = peer := by
  unfold isLeader leader
  split
  · rename_i none
    simp [none]
  · rename_i some
    simp [Nat.pos_of_ne_zero some]

theorem leader_lt (nodes : 0 < d.nodes) (duty : Duty) (roundNum : Nat) :
    d.leader duty roundNum < d.nodes := Nat.mod_lt _ nodes

/-- The quorums of a cluster with a bounded set of Byzantine peers. -/
def quorumSystem (d : Definition) (byzantine : Finset Nat)
    (bound : (byzantine.card : Int) ≤ d.faulty) : QuorumSystem Nat :=
  QuorumSystem.threshold (Finset.range d.nodes) byzantine d.quorum (by
    rw [Finset.card_range]
    exact overlap bound)

end Definition

end DvSpec.Consensus
