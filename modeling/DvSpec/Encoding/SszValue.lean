import DvSpec.Encoding.HashWalker
import DvSpec.Encoding.MerkleTree

/-!
# SSZ values and their hash tree roots

A value is a byte vector, a packed list of basic items, a container or a list of
values.  Its root hashes the chunks or the roots of its members in a tree of
fixed depth, and mixes the length into that of a list.  The root binds the value
among all values of its type, unless hashing them produced a collision.
-/

namespace DvSpec.Encoding

open DvSpec.Library

/-! ## Trees of fixed depth over chunks -/

section Chunks

variable (sha256 : Bytes → Bytes)

/-- The root of the tree with the given capacity, zero chunks standing for the missing
leaves. -/
def chunkRoot (chunks : List Bytes) (capacity : Nat) : Bytes :=
  (layerAt sha256 chunks (chunkCountDepth capacity)).headD
    (zeroHash sha256 (chunkCountDepth capacity))

/-- The layer that is hashed pairwise: odd layers are completed. -/
def evened (level : Nat) (layer : List Bytes) : List Bytes :=
  if layer.length % 2 = 0 then layer else layer ++ [zeroHash sha256 level]

/-- The inputs of `hashPairs`. -/
def pairsOf : List Bytes → List Bytes
  | left :: right :: rest => (left ++ right) :: pairsOf rest
  | _ => []

/-- The inputs hashed for the zero subtrees below a depth. -/
def zeroInputs (depth : Nat) : List Bytes :=
  (List.range depth).map fun level => zeroHash sha256 level ++ zeroHash sha256 level

/-- The inputs hashed for the root over some chunks. -/
def chunkInputs (chunks : List Bytes) (capacity : Nat) : List Bytes :=
  zeroInputs sha256 (chunkCountDepth capacity) ++
    (List.range (chunkCountDepth capacity)).flatMap fun level =>
      pairsOf (evened sha256 level (layerAt sha256 chunks level))

/-- The nodes of the perfect tree over the chunks, zero chunks standing for the rest. -/
def chunkNode (chunks : List Bytes) : Nat → Nat → Bytes :=
  HashTree.layer (hashNodes sha256) fun index => chunks.getD index zeroChunk

/-- The length of a list as a chunk. -/
def lengthChunk (count : Nat) : Bytes :=
  littleEndian uint64Size count ++ List.replicate (chunkSize - uint64Size) 0

/-- A root with the length mixed in. -/
def mixIn (root : Bytes) (count : Nat) : Bytes := sha256 (root ++ lengthChunk count)

variable {sha256}

theorem getD_layerAt_chunks (chunks : List Bytes) (level position : Nat) :
    (layerAt sha256 chunks level).getD position (zeroHash sha256 level) =
      chunkNode sha256 chunks level position := by
  induction level generalizing position with
  | zero => rfl
  | succ level ih =>
      rw [layerAt, getD_nextLayer, ih, ih]
      rfl

theorem chunkRoot_eq_chunkNode (chunks : List Bytes) (capacity : Nat) :
    chunkRoot sha256 chunks capacity = chunkNode sha256 chunks (chunkCountDepth capacity) 0 := by
  rw [← getD_layerAt_chunks]
  exact List.headD_eq_getD

/-- A position within an even layer is paired; beyond it there are zero hashes only. -/
theorem getD_pair_mem {layer : List Bytes} (even : layer.length % 2 = 0) (filler : Bytes)
    (position : Nat) :
    layer.getD (2 * position) filler ++ layer.getD (2 * position + 1) filler ∈ pairsOf layer ∨
      layer.getD (2 * position) filler ++ layer.getD (2 * position + 1) filler =
        filler ++ filler := by
  induction layer using pairsOf.induct generalizing position with
  | case1 left right rest ih =>
      have restEven : rest.length % 2 = 0 := by
        simp only [List.length_cons] at even
        omega
      cases position with
      | zero => exact Or.inl List.mem_cons_self
      | succ position =>
          rcases ih restEven position with paired | beyond
          · exact Or.inl (List.mem_cons_of_mem _ paired)
          · exact Or.inr beyond
  | case2 layer small =>
      cases layer with
      | nil => exact Or.inr rfl
      | cons node rest =>
          cases rest with
          | nil => cases even
          | cons next rest => exact absurd rfl (small node next rest)

/-- Every pair of siblings of the perfect tree is among the hashed inputs. -/
theorem mem_chunkInputs {chunks : List Bytes} {capacity level : Nat}
    (inTree : level < chunkCountDepth capacity) (position : Nat) :
    chunkNode sha256 chunks level (2 * position) ++
        chunkNode sha256 chunks level (2 * position + 1) ∈
      chunkInputs sha256 chunks capacity := by
  have even : (evened sha256 level (layerAt sha256 chunks level)).length % 2 = 0 := by
    unfold evened
    split
    · assumption
    · rw [List.length_append, List.length_singleton]
      omega
  have same : ∀ index, (evened sha256 level (layerAt sha256 chunks level)).getD index
      (zeroHash sha256 level) = chunkNode sha256 chunks level index := by
    intro index
    rw [← getD_layerAt_chunks]
    unfold evened
    split
    · rfl
    · exact getD_append_default _ _ _
  have paired := getD_pair_mem even (zeroHash sha256 level) position
  rw [same, same] at paired
  rcases paired with among | zeros
  · exact List.mem_append_right _ (List.mem_flatMap.mpr ⟨level, List.mem_range.mpr inTree, among⟩)
  · rw [zeros]
    exact List.mem_append_left _ (List.mem_map.mpr ⟨level, List.mem_range.mpr inTree, rfl⟩)

theorem length_zeroHash (digest : ∀ data, (sha256 data).length = 32) (level : Nat) :
    (zeroHash sha256 level).length = 32 := by
  cases level with
  | zero => rfl
  | succ level => exact digest _

theorem length_getD_chunk {chunks : List Bytes} (each : ∀ chunk ∈ chunks, chunk.length = 32)
    (index : Nat) : (chunks.getD index zeroChunk).length = 32 := by
  by_cases inside : index < chunks.length
  · rw [List.getD_eq_getElem _ _ inside]
    exact each _ (List.getElem_mem inside)
  · rw [List.getD_eq_default _ _ (Nat.le_of_not_lt inside)]
    rfl

theorem length_chunkNode (digest : ∀ data, (sha256 data).length = 32) {chunks : List Bytes}
    (each : ∀ chunk ∈ chunks, chunk.length = 32) (level position : Nat) :
    (chunkNode sha256 chunks level position).length = 32 :=
  HashTree.layer_property (P := fun node : Bytes => node.length = 32) (fun _ _ => digest _)
    (length_getD_chunk each) level position

theorem length_chunkRoot (digest : ∀ data, (sha256 data).length = 32) {chunks : List Bytes}
    (each : ∀ chunk ∈ chunks, chunk.length = 32) (capacity : Nat) :
    (chunkRoot sha256 chunks capacity).length = 32 := by
  rw [chunkRoot_eq_chunkNode]
  exact length_chunkNode digest each _ _

theorem CollisionFree.mono {small large : List Bytes} (free : CollisionFree sha256 large)
    (included : small ⊆ large) : CollisionFree sha256 small :=
  fun one first two second => free one (included first) two (included second)

/-- The inputs of two values split into those in front and those behind. -/
theorem CollisionFree.parts {one two restOne restTwo : List Bytes}
    (free : CollisionFree sha256 ((one ++ restOne) ++ (two ++ restTwo))) :
    CollisionFree sha256 (one ++ two) ∧ CollisionFree sha256 (restOne ++ restTwo) := by
  constructor
  · refine free.mono (List.append_subset.mpr ⟨?_, ?_⟩)
    · exact List.subset_append_of_subset_left _ (List.subset_append_left _ _)
    · exact List.subset_append_of_subset_right _ (List.subset_append_left _ _)
  · refine free.mono (List.append_subset.mpr ⟨?_, ?_⟩)
    · exact List.subset_append_of_subset_left _ (List.subset_append_right _ _)
    · exact List.subset_append_of_subset_right _ (List.subset_append_right _ _)

/-- Equal roots over equally many chunks have equal chunks. -/
theorem chunks_eq_of_chunkRoot_eq (digest : ∀ data, (sha256 data).length = 32)
    {one two : List Bytes} {capacity : Nat} (eachOne : ∀ chunk ∈ one, chunk.length = 32)
    (eachTwo : ∀ chunk ∈ two, chunk.length = 32) (lengths : one.length = two.length)
    (fits : one.length ≤ capacity)
    (free : CollisionFree sha256
      (chunkInputs sha256 one capacity ++ chunkInputs sha256 two capacity))
    (equal : chunkRoot sha256 one capacity = chunkRoot sha256 two capacity) : one = two := by
  rw [chunkRoot_eq_chunkNode, chunkRoot_eq_chunkNode] at equal
  have leaves : ∀ index < 2 ^ chunkCountDepth capacity,
      one.getD index zeroChunk = two.getD index zeroChunk := by
    refine HashTree.leaves_eq_of_root_eq ?_ equal
    intro level inTree position inLevel digests
    have widthOne := length_chunkNode digest eachOne level
    have widthTwo := length_chunkNode digest eachTwo level
    have inputs := free _ (List.mem_append_left _ (mem_chunkInputs inTree position)) _
      (List.mem_append_right _ (mem_chunkInputs inTree position))
      (by rw [List.length_append, widthOne, widthOne])
      (by rw [List.length_append, widthTwo, widthTwo]) digests
    exact List.append_inj inputs ((widthOne _).trans (widthTwo _).symm)
  have room := Nat.le_trans fits (le_two_pow_chunkCountDepth capacity)
  apply List.ext_getElem lengths
  intro index inOne inTwo
  have leaf := leaves index (Nat.lt_of_lt_of_le inOne room)
  rwa [List.getD_eq_getElem _ _ inOne, List.getD_eq_getElem _ _ inTwo] at leaf

end Chunks

/-! ## Bytes and lengths in chunks -/

theorem length_chunk_of_chunkify {data : Bytes} : ∀ chunk ∈ chunkify data, chunk.length = 32 :=
  fun _ member => length_of_mem_chunkify member

/-- Data of one length is determined by its chunks. -/
theorem eq_of_chunkify_eq {one two : Bytes} (lengths : one.length = two.length)
    (chunks : chunkify one = chunkify two) : one = two := by
  apply List.ext_getElem lengths
  intro position inOne inTwo
  have chunk : paddedChunk one (position / 32) = paddedChunk two (position / 32) := by
    rw [← getD_chunkify, ← getD_chunkify, chunks]
  have byte := congrArg (fun chunk => chunk.getD (position % 32) 0) chunk
  have offset : position % 32 < 32 := Nat.mod_lt _ (by decide)
  simpa [paddedChunk, List.getD_eq_getElem, offset, Nat.div_add_mod, inOne, inTwo] using byte

@[simp]
theorem length_littleEndian (size value : Nat) : (littleEndian size value).length = size := by
  rw [littleEndian, List.length_map, List.length_range]

theorem littleEndian_injective {size one two : Nat} (fitsOne : one < 256 ^ size)
    (fitsTwo : two < 256 ^ size) (equal : littleEndian size one = littleEndian size two) :
    one = two := by
  have digits : ∀ index < size, one / 256 ^ index % 256 = two / 256 ^ index % 256 := by
    intro index inside
    have byte := congrArg (fun bytes : Bytes => bytes[index]?) equal
    simp only [littleEndian, List.getElem?_map, List.getElem?_range inside, Option.map_some,
      Option.some.injEq] at byte
    have digit := congrArg UInt8.toNat byte
    simpa using digit
  have low : ∀ count ≤ size, one % 256 ^ count = two % 256 ^ count := by
    intro count
    induction count with
    | zero =>
        intro _
        rw [Nat.pow_zero, Nat.mod_one, Nat.mod_one]
    | succ count ih =>
        intro within
        rw [Nat.mod_pow_succ, Nat.mod_pow_succ, ih (Nat.le_of_succ_le within),
          digits count within]
  have whole := low size (Nat.le_refl _)
  rwa [Nat.mod_eq_of_lt fitsOne, Nat.mod_eq_of_lt fitsTwo] at whole

theorem length_lengthChunk (count : Nat) : (lengthChunk count).length = 32 := by
  rw [lengthChunk, List.length_append, length_littleEndian, List.length_replicate]
  rfl

theorem lengthChunk_injective {one two : Nat} (fitsOne : one < 2 ^ 64) (fitsTwo : two < 2 ^ 64)
    (equal : lengthChunk one = lengthChunk two) : one = two := by
  have bytes := (List.append_inj equal (by simp)).1
  have whole : 2 ^ 64 ≤ 256 ^ uint64Size := by decide
  exact littleEndian_injective (Nat.lt_of_lt_of_le fitsOne whole)
    (Nat.lt_of_lt_of_le fitsTwo whole) bytes

/-! ## Values -/

/-- A value as SSZ hashes it. -/
inductive SszValue where
  /-- A byte vector. -/
  | vector (data : Bytes)
  /-- `count` basic items, packed into a tree of `limit` chunks. -/
  | packed (limit count : Nat) (data : Bytes)
  | container (members : List SszValue)
  /-- A list of values with its capacity. -/
  | list (limit : Nat) (members : List SszValue)

namespace SszValue

variable (sha256 : Bytes → Bytes)

mutual

/-- The hash tree root of a value. -/
def root : SszValue → Bytes
  | .vector data => chunkRoot sha256 (chunkify data) (chunkify data).length
  | .packed limit count data => mixIn sha256 (chunkRoot sha256 (chunkify data) limit) count
  | .container members => chunkRoot sha256 (roots members) members.length
  | .list limit members => mixIn sha256 (chunkRoot sha256 (roots members) limit) members.length

/-- The roots of several values, in order. -/
def roots : List SszValue → List Bytes
  | [] => []
  | member :: rest => root member :: roots rest

end

mutual

/-- All inputs hashed for the root of a value. -/
def inputs : SszValue → List Bytes
  | .vector data => chunkInputs sha256 (chunkify data) (chunkify data).length
  | .packed limit count data =>
      (chunkRoot sha256 (chunkify data) limit ++ lengthChunk count) ::
        chunkInputs sha256 (chunkify data) limit
  | .container members =>
      chunkInputs sha256 (roots sha256 members) members.length ++ allInputs members
  | .list limit members =>
      (chunkRoot sha256 (roots sha256 members) limit ++ lengthChunk members.length) ::
        (chunkInputs sha256 (roots sha256 members) limit ++ allInputs members)

/-- All inputs hashed for the roots of several values. -/
def allInputs : List SszValue → List Bytes
  | [] => []
  | member :: rest => inputs member ++ allInputs rest

end

mutual

/-- Two values of one type, within its bounds. -/
def Alike : SszValue → SszValue → Prop
  | .vector one, .vector two => one.length = two.length
  | .packed limitOne countOne one, .packed limitTwo countTwo two =>
      limitOne = limitTwo ∧ (chunkify one).length ≤ limitOne ∧ countOne < 2 ^ 64 ∧
        countTwo < 2 ^ 64 ∧ (countOne = countTwo → one.length = two.length)
  | .container one, .container two => AllAlike one two
  | .list limitOne one, .list limitTwo two =>
      limitOne = limitTwo ∧ one.length ≤ limitOne ∧ one.length < 2 ^ 64 ∧
        two.length < 2 ^ 64 ∧ (one.length = two.length → AllAlike one two)
  | _, _ => False

/-- Equally many values, those in one place of one type. -/
def AllAlike : List SszValue → List SszValue → Prop
  | [], [] => True
  | one :: rest, two :: others => Alike one two ∧ AllAlike rest others
  | _, _ => False

end

variable {sha256}

theorem roots_eq_map (members : List SszValue) :
    roots sha256 members = members.map (root sha256) := by
  induction members with
  | nil => rfl
  | cons member rest ih => rw [roots, ih, List.map_cons]

@[simp]
theorem length_roots (members : List SszValue) :
    (roots sha256 members).length = members.length := by
  rw [roots_eq_map, List.length_map]

theorem roots_append (members others : List SszValue) :
    roots sha256 (members ++ others) = roots sha256 members ++ roots sha256 others := by
  rw [roots_eq_map, roots_eq_map, roots_eq_map, List.map_append]

theorem AllAlike.length_eq {one two : List SszValue} (alike : AllAlike one two) :
    one.length = two.length := by
  induction one generalizing two with
  | nil =>
      cases two with
      | nil => rfl
      | cons member rest => exact alike.elim
  | cons member rest ih =>
      cases two with
      | nil => exact alike.elim
      | cons other others => exact congrArg (· + 1) (ih alike.2)

mutual

theorem length_root (digest : ∀ data, (sha256 data).length = 32) :
    ∀ value : SszValue, (root sha256 value).length = 32
  | .vector _ => length_chunkRoot digest length_chunk_of_chunkify _
  | .packed .. => digest _
  | .container members => length_chunkRoot digest (length_of_mem_roots digest members) _
  | .list .. => digest _

theorem length_of_mem_roots (digest : ∀ data, (sha256 data).length = 32) :
    ∀ members : List SszValue, ∀ chunk ∈ roots sha256 members, chunk.length = 32
  | [], chunk, member => absurd member (List.not_mem_nil)
  | value :: rest, chunk, member => by
      rcases List.mem_cons.mp member with rfl | later
      · exact length_root digest value
      · exact length_of_mem_roots digest rest chunk later

end

/-- A mixed-in length and the root below it are bound. -/
theorem mixIn_inj {rootOne rootTwo : Bytes} {countOne countTwo : Nat}
    (widthOne : rootOne.length = 32) (widthTwo : rootTwo.length = 32)
    (fitsOne : countOne < 2 ^ 64) (fitsTwo : countTwo < 2 ^ 64)
    (free : CollisionFree sha256 [rootOne ++ lengthChunk countOne, rootTwo ++ lengthChunk countTwo])
    (equal : mixIn sha256 rootOne countOne = mixIn sha256 rootTwo countTwo) :
    rootOne = rootTwo ∧ countOne = countTwo := by
  have inputs := free _ (by simp) _ (by simp)
    (by rw [List.length_append, widthOne, length_lengthChunk])
    (by rw [List.length_append, widthTwo, length_lengthChunk]) equal
  obtain ⟨roots, lengths⟩ := List.append_inj inputs (widthOne.trans widthTwo.symm)
  exact ⟨roots, lengthChunk_injective fitsOne fitsTwo lengths⟩

/-- Data of one length is bound by the root of its chunks. -/
theorem data_eq_of_chunkRoot_eq (digest : ∀ data, (sha256 data).length = 32) {one two : Bytes}
    {capacity : Nat} (lengths : one.length = two.length) (fits : (chunkify one).length ≤ capacity)
    (free : CollisionFree sha256
      (chunkInputs sha256 (chunkify one) capacity ++ chunkInputs sha256 (chunkify two) capacity))
    (equal : chunkRoot sha256 (chunkify one) capacity = chunkRoot sha256 (chunkify two) capacity) :
    one = two := by
  have counts : (chunkify one).length = (chunkify two).length := by
    rw [length_chunkify, length_chunkify, lengths]
  exact eq_of_chunkify_eq lengths (chunks_eq_of_chunkRoot_eq digest length_chunk_of_chunkify
    length_chunk_of_chunkify counts fits free equal)

/-- Equally many roots are bound by the root of their tree. -/
theorem roots_eq_of_chunkRoot_eq (digest : ∀ data, (sha256 data).length = 32)
    {one two : List SszValue} {capacity : Nat} (lengths : one.length = two.length)
    (fits : one.length ≤ capacity)
    (free : CollisionFree sha256 (chunkInputs sha256 (roots sha256 one) capacity ++
      chunkInputs sha256 (roots sha256 two) capacity))
    (equal : chunkRoot sha256 (roots sha256 one) capacity =
      chunkRoot sha256 (roots sha256 two) capacity) : roots sha256 one = roots sha256 two :=
  chunks_eq_of_chunkRoot_eq digest (length_of_mem_roots digest one)
    (length_of_mem_roots digest two) (by rw [length_roots, length_roots, lengths])
    (by rw [length_roots]; exact fits) free equal

mutual

/-- Among the values of one type, the root determines the value. -/
theorem eq_of_root_eq (digest : ∀ data, (sha256 data).length = 32) :
    ∀ one two : SszValue, Alike one two →
      CollisionFree sha256 (inputs sha256 one ++ inputs sha256 two) →
      root sha256 one = root sha256 two → one = two
  | .vector one, .vector two, alike, free, equal => by
      have lengths : one.length = two.length := alike
      have counts : (chunkify one).length = (chunkify two).length := by
        rw [length_chunkify, length_chunkify, lengths]
      rw [root, root, ← counts] at equal
      rw [inputs, inputs, ← counts] at free
      rw [data_eq_of_chunkRoot_eq digest lengths (Nat.le_refl _) free equal]
  | .packed limit countOne one, .packed limitTwo countTwo two, alike, free, equal => by
      obtain ⟨rfl, fits, boundOne, boundTwo, sized⟩ := alike
      rw [inputs, inputs] at free
      obtain ⟨mixed, chunks⟩ := @CollisionFree.parts _ [_] [_] _ _ free
      obtain ⟨trees, rfl⟩ := mixIn_inj (length_chunkRoot digest length_chunk_of_chunkify _)
        (length_chunkRoot digest length_chunk_of_chunkify _) boundOne boundTwo mixed equal
      rw [data_eq_of_chunkRoot_eq digest (sized rfl) fits chunks trees]
  | .container one, .container two, alike, free, equal => by
      have lengths := AllAlike.length_eq alike
      rw [root, root, ← lengths] at equal
      rw [inputs, inputs, ← lengths] at free
      obtain ⟨chunks, members⟩ := free.parts
      rw [eq_of_roots_eq digest one two alike members
        (roots_eq_of_chunkRoot_eq digest lengths (Nat.le_refl _) chunks equal)]
  | .list limit one, .list limitTwo two, alike, free, equal => by
      obtain ⟨rfl, fits, boundOne, boundTwo, each⟩ := alike
      rw [inputs, inputs] at free
      obtain ⟨mixed, below⟩ := @CollisionFree.parts _ [_] [_] _ _ free
      obtain ⟨chunks, members⟩ := below.parts
      obtain ⟨trees, lengths⟩ := mixIn_inj
        (length_chunkRoot digest (length_of_mem_roots digest one) _)
        (length_chunkRoot digest (length_of_mem_roots digest two) _) boundOne boundTwo mixed equal
      rw [eq_of_roots_eq digest one two (each lengths) members
        (roots_eq_of_chunkRoot_eq digest lengths fits chunks trees)]
  | .vector _, .packed .., alike, _, _ => alike.elim
  | .vector _, .container _, alike, _, _ => alike.elim
  | .vector _, .list .., alike, _, _ => alike.elim
  | .packed .., .vector _, alike, _, _ => alike.elim
  | .packed .., .container _, alike, _, _ => alike.elim
  | .packed .., .list .., alike, _, _ => alike.elim
  | .container _, .vector _, alike, _, _ => alike.elim
  | .container _, .packed .., alike, _, _ => alike.elim
  | .container _, .list .., alike, _, _ => alike.elim
  | .list .., .vector _, alike, _, _ => alike.elim
  | .list .., .packed .., alike, _, _ => alike.elim
  | .list .., .container _, alike, _, _ => alike.elim

theorem eq_of_roots_eq (digest : ∀ data, (sha256 data).length = 32) :
    ∀ one two : List SszValue, AllAlike one two →
      CollisionFree sha256 (allInputs sha256 one ++ allInputs sha256 two) →
      roots sha256 one = roots sha256 two → one = two
  | [], [], _, _, _ => rfl
  | [], _ :: _, alike, _, _ => alike.elim
  | _ :: _, [], alike, _, _ => alike.elim
  | one :: rest, two :: others, alike, free, equal => by
      obtain ⟨head, tail⟩ := List.cons.inj equal
      rw [allInputs, allInputs] at free
      obtain ⟨first, later⟩ := free.parts
      rw [eq_of_root_eq digest one two alike.1 first head,
        eq_of_roots_eq digest rest others alike.2 later tail]

end

end SszValue

end DvSpec.Encoding
