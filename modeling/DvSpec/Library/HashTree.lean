import Mathlib.Algebra.Group.Nat.Defs
import Mathlib.Data.List.GetD
import Mathlib.Data.Nat.Basic

/-!
# Perfect hash trees

The nodes of a perfect binary tree over infinitely many leaves, level by level.
A hash that tells the pairs of two trees apart turns equal roots into equal
leaves.  A node is the root of the finite tree below it.
-/

namespace DvSpec.Library.HashTree

variable {α : Type} (hash : α → α → α)

/-- The nodes `level` levels above the leaves. -/
def layer (leaves : Nat → α) : Nat → Nat → α
  | 0, position => leaves position
  | level + 1, position =>
      hash (layer leaves level (2 * position)) (layer leaves level (2 * position + 1))

variable {hash}

/-- A property of the leaves that hashing establishes holds of every node. -/
theorem layer_property {leaves : Nat → α} {P : α → Prop} (hashed : ∀ left right, P (hash left right))
    (bottom : ∀ position, P (leaves position)) (level position : Nat) :
    P (layer hash leaves level position) := by
  cases level with
  | zero => exact bottom position
  | succ level => exact hashed _ _

/-- Going down from equal roots, nodes at every level are equal. -/
theorem layer_eq_of_root_eq {leaves others : Nat → α} {depth : Nat}
    (apart : ∀ level < depth, ∀ position < 2 ^ (depth - level - 1),
      hash (layer hash leaves level (2 * position)) (layer hash leaves level (2 * position + 1)) =
        hash (layer hash others level (2 * position)) (layer hash others level (2 * position + 1)) →
      layer hash leaves level (2 * position) = layer hash others level (2 * position) ∧
        layer hash leaves level (2 * position + 1) = layer hash others level (2 * position + 1))
    (root : layer hash leaves depth 0 = layer hash others depth 0) :
    ∀ below ≤ depth, ∀ position < 2 ^ below,
      layer hash leaves (depth - below) position = layer hash others (depth - below) position := by
  intro below
  induction below with
  | zero =>
      intro _ position first
      rw [Nat.lt_one_iff.mp first]
      exact root
  | succ below ih =>
      intro within position inRange
      have parent : position / 2 < 2 ^ below := by
        rw [Nat.pow_succ] at inRange
        omega
      have equal := ih (Nat.le_of_succ_le within) (position / 2) parent
      have level : depth - below = depth - (below + 1) + 1 := by omega
      have room : depth - (depth - (below + 1)) - 1 = below := by omega
      rw [level] at equal
      obtain ⟨left, right⟩ := apart (depth - (below + 1)) (by omega) (position / 2)
        (room.symm ▸ parent) equal
      rcases Nat.mod_two_eq_zero_or_one position with even | odd
      · have halves : 2 * (position / 2) = position := by omega
        rwa [halves] at left
      · have halves : 2 * (position / 2) + 1 = position := by omega
        rwa [halves] at right

/-- Equal roots have equal leaves. -/
theorem leaves_eq_of_root_eq {leaves others : Nat → α} {depth : Nat}
    (apart : ∀ level < depth, ∀ position < 2 ^ (depth - level - 1),
      hash (layer hash leaves level (2 * position)) (layer hash leaves level (2 * position + 1)) =
        hash (layer hash others level (2 * position)) (layer hash others level (2 * position + 1)) →
      layer hash leaves level (2 * position) = layer hash others level (2 * position) ∧
        layer hash leaves level (2 * position + 1) = layer hash others level (2 * position + 1))
    (root : layer hash leaves depth 0 = layer hash others depth 0) :
    ∀ position < 2 ^ depth, leaves position = others position := by
  intro position inRange
  have bottom := layer_eq_of_root_eq apart root depth (Nat.le_refl _) position inRange
  rwa [Nat.sub_self] at bottom

/-! ## Finite trees -/

/-- A binary tree whose leaves all lie at the same depth. -/
inductive PerfectTree (α : Type) : Nat → Type where
  | leaf (value : α) : PerfectTree α 0
  | fork {depth : Nat} (left right : PerfectTree α depth) : PerfectTree α (depth + 1)

namespace PerfectTree

/-- The leaves from left to right. -/
def leaves {depth : Nat} : PerfectTree α depth → List α
  | leaf value => [value]
  | fork left right => left.leaves ++ right.leaves

/-- Hash the roots of the two halves, down to the leaves. -/
def root (hash : α → α → α) {depth : Nat} : PerfectTree α depth → α
  | leaf value => value
  | fork left right => hash (left.root hash) (right.root hash)

/-- The tree of a depth at a position of its level. -/
def above (leaves : Nat → α) : (depth : Nat) → Nat → PerfectTree α depth
  | 0, position => leaf (leaves position)
  | depth + 1, position =>
      fork (above leaves depth (2 * position)) (above leaves depth (2 * position + 1))

theorem root_above (leaves : Nat → α) (depth position : Nat) :
    (above leaves depth position).root hash = layer hash leaves depth position := by
  induction depth generalizing position with
  | zero => rfl
  | succ depth ih => rw [above, root, ih, ih, layer]

theorem leaves_above (leaves : Nat → α) (depth position : Nat) :
    (above leaves depth position).leaves =
      (List.range (2 ^ depth)).map fun index => leaves (2 ^ depth * position + index) := by
  induction depth generalizing position with
  | zero => simp [above, PerfectTree.leaves]
  | succ depth ih =>
      have width : 2 ^ (depth + 1) = 2 ^ depth + 2 ^ depth := by
        rw [Nat.pow_succ]
        omega
      have first : 2 ^ depth * (2 * position) = 2 ^ (depth + 1) * position := by
        rw [Nat.pow_succ, Nat.mul_assoc]
      rw [above, PerfectTree.leaves, ih, ih, width, List.range_add, List.map_append, ← width,
        List.map_map, first]
      congr 1
      refine List.map_congr_left fun index _ => congrArg leaves ?_
      rw [Nat.mul_add, first, Nat.mul_one, Nat.add_assoc]

/-- Leaves that are a list followed by a filler. -/
theorem leaves_above_getD {items : List α} {depth : Nat} (fits : items.length ≤ 2 ^ depth)
    (filler : α) : (above (fun index => items.getD index filler) depth 0).leaves =
      items ++ List.replicate (2 ^ depth - items.length) filler := by
  rw [leaves_above]
  apply List.ext_getElem
  · rw [List.length_map, List.length_range, List.length_append, List.length_replicate]
    omega
  · intro index _ _
    rw [List.getElem_map, List.getElem_range, Nat.mul_zero, Nat.zero_add, List.getElem_append]
    split
    · rename_i inside
      exact List.getD_eq_getElem items filler inside
    · rename_i beyond
      rw [List.getElem_replicate]
      exact List.getD_eq_default items filler (Nat.not_lt.mp beyond)

end PerfectTree

end DvSpec.Library.HashTree
