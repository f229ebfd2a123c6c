import DvSpec.Encoding.Walk
import DvSpec.Crypto.Sha256
import Mathlib.Order.Bounds.Basic

/-!
# Sparse merkleization computes the full tree

The layers of `merkleize` hold the chunks present and complete odd levels from a
table of zero hashes.  Its root is that of the perfect tree over the chunks
followed by zero chunks, of the least depth with room for the limit.
-/

namespace DvSpec.Encoding

open DvSpec.Library DvSpec.Library.HashTree

variable {sha256 : Bytes → Bytes}

/-- The number of leaves the tree is sized for. -/
def treeLimit (chunks : List Bytes) (limit : Nat) : Nat :=
  if limit = 0 then chunks.length else limit

/-- The leaves of a full tree: the chunks, then zero chunks. -/
def fullLeaves (chunks : List Bytes) (depth : Nat) : List Bytes :=
  chunks ++ List.replicate (2 ^ depth - chunks.length) zeroChunk

theorem isLeast_chunkCountDepth (count : Nat) :
    IsLeast {depth | count ≤ 2 ^ depth} (chunkCountDepth count) :=
  ⟨le_two_pow_chunkCountDepth count, fun _ fits => chunkCountDepth_le_iff.mpr fits⟩

/-- The root of the chunks is the root of the full tree. -/
theorem chunkRoot_eq_root {chunks : List Bytes} {capacity : Nat}
    (fits : chunks.length ≤ capacity) :
    ∃ tree : PerfectTree Bytes (chunkCountDepth capacity),
      tree.leaves = fullLeaves chunks (chunkCountDepth capacity) ∧
        chunkRoot sha256 chunks capacity = tree.root (hashNodes sha256) := by
  have room := Nat.le_trans fits (le_two_pow_chunkCountDepth capacity)
  refine ⟨_, PerfectTree.leaves_above_getD room zeroChunk, ?_⟩
  rw [chunkRoot_eq_chunkNode, chunkNode, PerfectTree.root_above]

/-- Chunks within the limit are merkleized to the root of that capacity. -/
theorem merkleizeWithin_eq_ok {chunks : List Bytes} {limit : Nat} (bound : limit ≤ 2 ^ 64)
    (sized : limit = 0 → chunks.length ≤ 2 ^ 64) (fits : ¬ (0 < limit ∧ limit < chunks.length)) :
    merkleizeWithin sha256 chunks limit =
      .ok (chunkRoot sha256 chunks (treeLimit chunks limit)) := by
  unfold treeLimit
  split
  · rename_i unlimited
    rw [unlimited]
    exact merkleizeWithin_zero (sized unlimited)
  · rename_i limited
    have positive := Nat.pos_of_ne_zero limited
    exact merkleizeWithin_limit positive bound
      (Nat.not_lt.mp fun oversized => fits ⟨positive, oversized⟩)

theorem length_le_treeLimit {chunks : List Bytes} {limit : Nat}
    (fits : ¬ (0 < limit ∧ limit < chunks.length)) : chunks.length ≤ treeLimit chunks limit := by
  unfold treeLimit
  split <;> omega

/-- More chunks than a positive limit raise a `ValueError`, and everything else has the
root of the full tree of least depth. -/
theorem merkleizeWithin_fullTree {chunks : List Bytes} {limit : Nat} (bound : limit ≤ 2 ^ 64)
    (sized : limit = 0 → chunks.length ≤ 2 ^ 64) :
    ((∃ message, merkleizeWithin sha256 chunks limit = .error (.valueError message)) ↔
        0 < limit ∧ limit < chunks.length) ∧
      (¬ (0 < limit ∧ limit < chunks.length) →
        ∃ depth, IsLeast {depth | treeLimit chunks limit ≤ 2 ^ depth} depth ∧
          ∃ tree : PerfectTree Bytes depth, tree.leaves = fullLeaves chunks depth ∧
            merkleizeWithin sha256 chunks limit = .ok (tree.root (hashNodes sha256))) := by
  constructor
  · constructor
    · rintro ⟨message, raised⟩
      by_contra fits
      rw [merkleizeWithin_eq_ok bound sized fits] at raised
      cases raised
    · intro oversized
      exact ⟨_, if_pos ⟨Nat.ne_of_gt oversized.1, oversized.2⟩⟩
  · intro fits
    obtain ⟨tree, leaves, root⟩ :=
      @chunkRoot_eq_root sha256 _ _ (length_le_treeLimit fits)
    refine ⟨_, isLeast_chunkCountDepth _, tree, leaves, ?_⟩
    rw [merkleizeWithin_eq_ok bound sized fits, root]

/-- Three chunks in a tree sized for five: the tree has eight leaves. -/
theorem merkleizeWithin_fullTree_threeOfFive :
    ∃ tree : PerfectTree Bytes 3,
      tree.leaves = fullLeaves (List.replicate 3 (List.replicate 32 1)) 3 ∧
        merkleizeWithin Sha256.sha256 (List.replicate 3 (List.replicate 32 1)) 5 =
          .ok (tree.root (hashNodes Sha256.sha256)) := by
  obtain ⟨depth, least, tree, leaves, root⟩ :=
    (@merkleizeWithin_fullTree Sha256.sha256 (List.replicate 3 (List.replicate 32 1)) 5
      (by decide) (fun unlimited => by cases unlimited)).2 (by decide)
  obtain rfl : depth = 3 :=
    least.unique ⟨(by decide : 5 ≤ 2 ^ 3), fun other fits => by
      by_contra small
      have : other ≤ 2 := by omega
      exact absurd (Nat.le_trans fits (Nat.pow_le_pow_right (by decide) this)) (by decide)⟩
  exact ⟨tree, leaves, root⟩

end DvSpec.Encoding
