import DvSpec.Encoding.Ssz
import DvSpec.Library.BigEndian
import DvSpec.Library.HashTree

/-!
# The Merkle root is the root of the full tree

Completing odd layers with zero hashes computes the perfect tree whose missing
leaves are zero chunks.  Two encodings with equal roots at equal depth therefore
agree up to trailing zeros, unless hashing them produced a collision.
-/

namespace DvSpec.Encoding

open DvSpec.Library

/-! ## Chunks -/

/-- The data with its last chunk completed. -/
def completed (data : Bytes) : Bytes :=
  if data.length % 32 = 0 then data else data ++ List.replicate (32 - data.length % 32) 0

theorem chunkify_eq (data : Bytes) : chunkify data =
    (List.range ((completed data).length / 32)).map fun index =>
      ((completed data).drop (32 * index)).take 32 := rfl

theorem length_completed (data : Bytes) :
    (completed data).length = 32 * ((data.length + 31) / 32) := by
  unfold completed
  by_cases whole : data.length % 32 = 0
  · rw [if_pos whole]
    omega
  · rw [if_neg whole, List.length_append, List.length_replicate]
    omega

theorem length_chunkify (data : Bytes) : (chunkify data).length = (data.length + 31) / 32 := by
  rw [chunkify_eq, List.length_map, List.length_range, length_completed]
  omega

/-- The 32 bytes from a chunk's offset on, zeros beyond the end. -/
def paddedChunk (data : Bytes) (index : Nat) : Bytes :=
  (List.range 32).map fun offset => data.getD (32 * index + offset) 0

theorem length_paddedChunk (data : Bytes) (index : Nat) : (paddedChunk data index).length = 32 := by
  rw [paddedChunk, List.length_map, List.length_range]

theorem getD_append_zeros (data : Bytes) (count position : Nat) :
    (data ++ List.replicate count 0).getD position 0 = data.getD position 0 := by
  by_cases inside : position < data.length
  · exact List.getD_append _ _ _ _ inside
  · rw [List.getD_append_right _ _ _ _ (Nat.le_of_not_lt inside),
      List.getD_eq_default data 0 (Nat.le_of_not_lt inside)]
    by_cases padding : position - data.length < count
    · exact List.getD_replicate _ padding
    · exact List.getD_eq_default _ _ (by rw [List.length_replicate]; omega)

/-- A chunk cut from data of full length. -/
theorem take_drop_eq_paddedChunk {data : Bytes} {index : Nat}
    (fits : 32 * index + 32 ≤ data.length) :
    (data.drop (32 * index)).take 32 = paddedChunk data index := by
  apply List.ext_getElem
  · rw [length_paddedChunk, List.length_take, List.length_drop]
    omega
  · intro offset inside _
    rw [List.length_take, List.length_drop] at inside
    have within : 32 * index + offset < data.length := by omega
    simp only [paddedChunk, List.getElem_take, List.getElem_drop, List.getElem_map,
      List.getElem_range]
    exact (List.getD_eq_getElem data 0 within).symm

theorem getD_completed (data : Bytes) (position : Nat) :
    (completed data).getD position 0 = data.getD position 0 := by
  unfold completed
  split
  · rfl
  · exact getD_append_zeros data _ position

/-- Every chunk, also beyond the last one, holds the bytes from its offset on. -/
theorem getD_chunkify (data : Bytes) (index : Nat) :
    (chunkify data).getD index zeroChunk = paddedChunk data index := by
  have same : paddedChunk (completed data) index = paddedChunk data index := by
    simp only [paddedChunk, getD_completed]
  have length := length_completed data
  rw [← same]
  by_cases inside : index < (data.length + 31) / 32
  · have inRange : index < (chunkify data).length := length_chunkify data ▸ inside
    rw [List.getD_eq_getElem _ _ inRange, ← take_drop_eq_paddedChunk (by omega)]
    simp only [chunkify_eq, List.getElem_map, List.getElem_range]
  · rw [List.getD_eq_default _ _ (by rw [length_chunkify]; omega)]
    apply List.ext_getElem
    · rw [length_paddedChunk]
      rfl
    · intro offset _ _
      simp only [zeroChunk, paddedChunk, List.getElem_replicate, List.getElem_map,
        List.getElem_range]
      exact (List.getD_eq_default _ _ (by omega)).symm

/-! ## Layers -/

/-- Hash two sibling nodes. -/
def hashNodes (sha256 : Bytes → Bytes) (left right : Bytes) : Bytes := sha256 (left ++ right)

/-- The nodes of the perfect tree over the data's chunks followed by zero chunks. -/
def treeNode (sha256 : Bytes → Bytes) (data : Bytes) : Nat → Nat → Bytes :=
  HashTree.layer (hashNodes sha256) (paddedChunk data)

variable {sha256 : Bytes → Bytes}

/-- Hashing an even layer pairwise computes every parent, also beyond the last one. -/
theorem getD_hashPairs {layer : List Bytes} (even : layer.length % 2 = 0) (filler : Bytes)
    (position : Nat) :
    (hashPairs sha256 layer).getD position (sha256 (filler ++ filler)) =
      sha256 (layer.getD (2 * position) filler ++ layer.getD (2 * position + 1) filler) := by
  induction layer using hashPairs.induct generalizing position with
  | case1 left right rest ih =>
      have restEven : rest.length % 2 = 0 := by
        simp only [List.length_cons] at even
        omega
      cases position with
      | zero => rfl
      | succ position => exact ih restEven position
  | case2 layer small =>
      cases layer with
      | nil => rfl
      | cons node rest =>
          cases rest with
          | nil => cases even
          | cons next rest => exact absurd rfl (small node next rest)

theorem getD_append_default {α : Type} (items : List α) (filler : α) (position : Nat) :
    (items ++ [filler]).getD position filler = items.getD position filler := by
  by_cases inside : position < items.length
  · exact List.getD_append _ _ _ _ inside
  · rw [List.getD_append_right _ _ _ _ (Nat.le_of_not_lt inside),
      List.getD_eq_default items _ (Nat.le_of_not_lt inside)]
    cases position - items.length <;> rfl

/-- One level up, an odd layer being completed with that level's zero hash. -/
theorem getD_nextLayer (level : Nat) (layer : List Bytes) (position : Nat) :
    (nextLayer sha256 level layer).getD position (zeroHash sha256 (level + 1)) =
      sha256 (layer.getD (2 * position) (zeroHash sha256 level) ++
        layer.getD (2 * position + 1) (zeroHash sha256 level)) := by
  unfold nextLayer
  by_cases even : layer.length % 2 = 0
  · rw [if_pos even]
    exact getD_hashPairs even _ position
  · have completedEven : (layer ++ [zeroHash sha256 level]).length % 2 = 0 := by
      rw [List.length_append, List.length_singleton]
      omega
    rw [if_neg even]
    refine (getD_hashPairs completedEven _ position).trans ?_
    rw [getD_append_default, getD_append_default]

/-- The layers hold the nodes of the perfect tree, zero hashes standing for the rest. -/
theorem getD_layerAt (data : Bytes) (level position : Nat) :
    (layerAt sha256 (chunkify data) level).getD position (zeroHash sha256 level) =
      treeNode sha256 data level position := by
  induction level generalizing position with
  | zero => exact getD_chunkify data position
  | succ level ih =>
      rw [layerAt, getD_nextLayer, ih, ih]
      rfl

theorem nextLayer_ne_nil {layer : List Bytes} (some_node : layer ≠ []) (level : Nat) :
    nextLayer sha256 level layer ≠ [] := by
  match layer with
  | [] => exact absurd rfl some_node
  | [node] => exact List.cons_ne_nil _ _
  | node :: next :: rest =>
      unfold nextLayer
      split <;> exact List.cons_ne_nil _ _

theorem layerAt_ne_nil {chunks : List Bytes} (some_chunk : chunks ≠ []) (level : Nat) :
    layerAt sha256 chunks level ≠ [] := by
  induction level with
  | zero => exact some_chunk
  | succ level ih => exact nextLayer_ne_nil ih level

/-! ## Roots -/

/-- The depth of the tree over an encoding. -/
def treeDepth (data : Bytes) : Nat := chunkCountDepth (chunkify data).length

/-- The hash root of every encoding is the root of its perfect tree. -/
theorem hashProto_eq_treeNode (data : Bytes) :
    hashProto sha256 data = treeNode sha256 data (treeDepth data) 0 := by
  rw [← getD_layerAt]
  unfold treeDepth hashProto merkleize
  have length := length_chunkify data
  by_cases short : data.length ≤ chunkSize
  · rw [if_pos short]
    have shallow : chunkCountDepth (chunkify data).length = 0 := by
      have one : (chunkify data).length ≤ 1 := by
        rw [chunkSize] at short
        omega
      rw [chunkCountDepth, if_pos one]
    rw [shallow]
    by_cases empty : data = []
    · subst empty
      rfl
    · rw [if_neg empty]
      exact List.headD_eq_getD
  · rw [if_neg short]
    have several : 2 ≤ (chunkify data).length := by
      rw [chunkSize] at short
      omega
    split
    · rename_i none
      rw [none] at several
      exact absurd several (by decide)
    · rename_i chunk one
      rw [one] at several
      exact absurd several (Nat.not_succ_le_self 1)
    · have nonempty : chunkify data ≠ [] := by
        intro empty
        rw [empty] at several
        exact absurd several (by decide)
      have some_root := @layerAt_ne_nil sha256 _ nonempty (chunkCountDepth (chunkify data).length)
      cases root : layerAt sha256 (chunkify data) (chunkCountDepth (chunkify data).length) with
      | nil => exact absurd root some_root
      | cons node rest => rfl

/-! ## Binding -/

theorem le_two_pow_chunkCountDepth (count : Nat) : count ≤ 2 ^ chunkCountDepth count := by
  unfold chunkCountDepth
  split
  · rename_i few
    exact Nat.le_trans few Nat.one_le_two_pow
  · rename_i several
    have size : bitLength (count - 1) = Nat.log2 (count - 1) + 1 :=
      if_neg (by omega)
    have shifted : bitLength (1 <<< bitLength (count - 1)) = bitLength (count - 1) + 1 := by
      rw [Nat.one_shiftLeft, bitLength, if_neg (Nat.ne_of_gt (Nat.two_pow_pos _)),
        Nat.log2_two_pow]
    have below := @Nat.lt_log2_self (count - 1)
    rw [shifted, Nat.add_sub_cancel, size]
    omega

/-- The depth is the least one that has room for the leaves. -/
theorem chunkCountDepth_le_iff {count depth : Nat} :
    chunkCountDepth count ≤ depth ↔ count ≤ 2 ^ depth := by
  constructor
  · intro shallow
    exact Nat.le_trans (le_two_pow_chunkCountDepth count)
      (Nat.pow_le_pow_right (by decide) shallow)
  · intro fits
    unfold chunkCountDepth
    split
    · exact Nat.zero_le _
    · rename_i several
      have size : bitLength (count - 1) = Nat.log2 (count - 1) + 1 := if_neg (by omega)
      have shifted : bitLength (1 <<< bitLength (count - 1)) = bitLength (count - 1) + 1 := by
        rw [Nat.one_shiftLeft, bitLength, if_neg (Nat.ne_of_gt (Nat.two_pow_pos _)),
          Nat.log2_two_pow]
      have small : Nat.log2 (count - 1) < depth := by
        rw [Nat.log2_lt (by omega)]
        omega
      rw [shifted, Nat.add_sub_cancel, size]
      exact small

theorem length_le_treeDepth (data : Bytes) : data.length ≤ 32 * 2 ^ treeDepth data := by
  have chunks := le_two_pow_chunkCountDepth (chunkify data).length
  have length := length_chunkify data
  unfold treeDepth
  omega

/-- The inputs hashed for the inner nodes of the tree over an encoding. -/
def treeInputs (sha256 : Bytes → Bytes) (data : Bytes) : List Bytes :=
  (List.range (treeDepth data)).flatMap fun level =>
    (List.range (2 ^ (treeDepth data - level - 1))).map fun position =>
      treeNode sha256 data level (2 * position) ++ treeNode sha256 data level (2 * position + 1)

/-- The digest is injective on those 64-byte inputs that are listed; on all of them it
cannot be, as a digest has only 32 bytes. -/
def CollisionFree (sha256 : Bytes → Bytes) (inputs : List Bytes) : Prop :=
  ∀ one ∈ inputs, ∀ two ∈ inputs, one.length = 64 → two.length = 64 →
    sha256 one = sha256 two → one = two

instance (sha256 : Bytes → Bytes) (inputs : List Bytes) :
    Decidable (CollisionFree sha256 inputs) :=
  inferInstanceAs (Decidable (∀ one ∈ inputs, ∀ two ∈ inputs, one.length = 64 → two.length = 64 →
    sha256 one = sha256 two → one = two))

/-- No digest belongs to two inputs, in a list of inputs with their digests or among those seen
before it. -/
def apart : List (Nat × Nat) → List (Nat × Nat) → Bool
  | [], _ => true
  | entry :: rest, seen =>
      match seen.find? fun other => Nat.beq other.2 entry.2 with
      | some other => Nat.beq other.1 entry.1 && apart rest seen
      | none => apart rest (entry :: seen)

theorem eq_of_apart {entries seen : List (Nat × Nat)} (checked : apart entries seen = true)
    (known : ∀ one ∈ seen, ∀ two ∈ seen, one.2 = two.2 → one.1 = two.1) :
    ∀ one ∈ entries ++ seen, ∀ two ∈ entries ++ seen, one.2 = two.2 → one.1 = two.1 := by
  induction entries generalizing seen with
  | nil => exact known
  | cons entry rest ih =>
      rw [apart] at checked
      cases found : seen.find? fun other => Nat.beq other.2 entry.2 with
      | some other =>
          rw [found] at checked
          obtain ⟨input, later⟩ := Bool.and_eq_true_iff.mp checked
          have digest : other.2 = entry.2 := Nat.eq_of_beq_eq_true
            (@List.find?_some _ (fun other : Nat × Nat => Nat.beq other.2 entry.2) _ _ found)
          -- the entry was seen before, so nothing is added
          have same : other = entry := Prod.ext (Nat.eq_of_beq_eq_true input) digest
          have member : entry ∈ rest ++ seen :=
            List.mem_append_right _ (same ▸ List.mem_of_find?_eq_some found)
          have fewer : ∀ one ∈ entry :: rest ++ seen, one ∈ rest ++ seen :=
            List.forall_mem_cons.mpr ⟨member, fun _ among => among⟩
          exact fun one inOne two inTwo =>
            ih later known one (fewer one inOne) two (fewer two inTwo)
      | none =>
          rw [found] at checked
          have fresh : ∀ other ∈ seen, other.2 ≠ entry.2 := fun other member equal =>
            List.find?_eq_none.mp found other member (Nat.beq_eq.mpr equal)
          have moved : ∀ one ∈ entry :: rest ++ seen, one ∈ rest ++ entry :: seen := by
            intro one member
            simp only [List.cons_append, List.mem_cons, List.mem_append] at member ⊢
            tauto
          refine fun one inOne two inTwo => ih checked ?_ one (moved one inOne) two (moved two inTwo)
          rw [List.forall_mem_cons]
          refine ⟨List.forall_mem_cons.mpr ⟨fun _ => rfl, fun two inTwo equal => ?_⟩,
            fun one inOne => List.forall_mem_cons.mpr ⟨fun equal => ?_, known one inOne⟩⟩
          · exact absurd equal.symm (fresh two inTwo)
          · exact absurd equal (fresh one inOne)

/-- Inputs with their digests, as numbers. -/
def numbered (sha256 : Bytes → Bytes) (inputs : List Bytes) : List (Nat × Nat) :=
  inputs.map fun input => (fromBigEndian input, fromBigEndian (sha256 input))

/-- Comparing numbers suffices to tell inputs apart by their digests. -/
theorem collisionFree_of_apart {inputs : List Bytes}
    (checked : apart (numbered sha256 inputs) [] = true) : CollisionFree sha256 inputs := by
  have told := eq_of_apart checked (fun _ none => absurd none List.not_mem_nil)
  rw [List.append_nil] at told
  intro one inOne two inTwo sizedOne sizedTwo equal
  exact fromBigEndian_inj (sizedOne.trans sizedTwo.symm)
    (told _ (List.mem_map_of_mem inOne) _ (List.mem_map_of_mem inTwo)
      (congrArg fromBigEndian equal))

theorem mem_treeInputs {data : Bytes} {level position : Nat} (inTree : level < treeDepth data)
    (inLevel : position < 2 ^ (treeDepth data - level - 1)) :
    treeNode sha256 data level (2 * position) ++ treeNode sha256 data level (2 * position + 1) ∈
      treeInputs sha256 data :=
  List.mem_flatMap.mpr ⟨level, List.mem_range.mpr inTree,
    List.mem_map.mpr ⟨position, List.mem_range.mpr inLevel, rfl⟩⟩

theorem length_treeNode (digest : ∀ data, (sha256 data).length = 32) (data : Bytes)
    (level position : Nat) : (treeNode sha256 data level position).length = 32 :=
  HashTree.layer_property (P := fun node : Bytes => node.length = 32) (fun _ _ => digest _)
    (length_paddedChunk data) level position

/-- All inputs of a tree are 64 bytes long. -/
theorem length_of_mem_treeInputs (digest : ∀ data, (sha256 data).length = 32) {data input : Bytes}
    (member : input ∈ treeInputs sha256 data) : input.length = 64 := by
  obtain ⟨level, -, among⟩ := List.mem_flatMap.mp member
  obtain ⟨position, -, rfl⟩ := List.mem_map.mp among
  rw [List.length_append, length_treeNode digest, length_treeNode digest]

/-- Encodings of one depth with equal roots agree at every position, zeros beyond the end. -/
theorem getD_eq_of_hashProto_eq (digest : ∀ data, (sha256 data).length = 32) {one two : Bytes}
    (depth : treeDepth one = treeDepth two)
    (free : CollisionFree sha256 (treeInputs sha256 one ++ treeInputs sha256 two))
    (equal : hashProto sha256 one = hashProto sha256 two) (position : Nat) :
    one.getD position 0 = two.getD position 0 := by
  rw [hashProto_eq_treeNode, hashProto_eq_treeNode, ← depth] at equal
  have chunks : ∀ index < 2 ^ treeDepth one, paddedChunk one index = paddedChunk two index := by
    refine HashTree.leaves_eq_of_root_eq ?_ equal
    intro level inTree index inLevel digests
    have inOne := @mem_treeInputs sha256 one level index inTree inLevel
    have inTwo := @mem_treeInputs sha256 two level index (depth ▸ inTree) (depth ▸ inLevel)
    have inputs := free _ (List.mem_append_left _ inOne) _ (List.mem_append_right _ inTwo)
      (length_of_mem_treeInputs digest inOne) (length_of_mem_treeInputs digest inTwo) digests
    exact List.append_inj inputs
      ((length_treeNode digest one _ _).trans (length_treeNode digest two _ _).symm)
  by_cases inside : position / 32 < 2 ^ treeDepth one
  · have chunk := chunks (position / 32) inside
    have byte := congrArg (fun chunk => chunk.getD (position % 32) 0) chunk
    have offset : position % 32 < 32 := Nat.mod_lt _ (by decide)
    simpa [paddedChunk, List.getD_eq_getElem, offset, Nat.div_add_mod] using byte
  · have longOne := length_le_treeDepth one
    have longTwo := length_le_treeDepth two
    rw [← depth] at longTwo
    rw [List.getD_eq_default one 0 (by omega), List.getD_eq_default two 0 (by omega)]

/-- Data that agrees at every position differs in trailing zeros only. -/
theorem append_zeros_of_getD_eq {one two : Bytes}
    (agree : ∀ position, one.getD position 0 = two.getD position 0) :
    ∃ first second, one ++ List.replicate first 0 = two ++ List.replicate second 0 := by
  refine ⟨two.length - one.length, one.length - two.length, ?_⟩
  apply List.ext_getElem
  · rw [List.length_append, List.length_append, List.length_replicate, List.length_replicate]
    omega
  · intro position inOne inTwo
    rw [← List.getD_eq_getElem _ 0 inOne, ← List.getD_eq_getElem _ 0 inTwo, getD_append_zeros,
      getD_append_zeros]
    exact agree position

/-- A digest function known on finitely many inputs, zero elsewhere. -/
def knownDigests (known : List (Bytes × Bytes)) (data : Bytes) : Bytes :=
  paddedChunk ((known.find? fun entry => entry.1 = data).elim [] Prod.snd) 0

theorem length_knownDigests (known : List (Bytes × Bytes)) (data : Bytes) :
    (knownDigests known data).length = 32 :=
  length_paddedChunk _ _

end DvSpec.Encoding
