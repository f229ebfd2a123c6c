import DvSpec.Encoding.SszValue
import DvSpec.Library.Raising

/-!
# The walker holds the roots of SSZ values

Every operation of the walker appends the root of one value or raises for its
capacity, and closing a container or a list replaces the roots of its members by
its own.  A walk therefore never leaves its buffer unaligned.
-/

namespace DvSpec.Encoding

open DvSpec.Library DvSpec.Library.Raising

/-- The messages of the values that exceed their capacity. -/
inductive CapacityError : String → Prop where
  | byteList (field : String) (length maxBytes : Nat) :
      CapacityError s!"{field} is {length} bytes, over the {maxBytes} byte limit"
  | bytesN (field : String) (length size : Nat) :
      CapacityError s!"{field} is {length} bytes, over the fixed length of {size}"
  | list (count limit : Nat) : CapacityError s!"{count} chunks exceed the limit of {limit}"

/-- A `ValueError` with one of the given messages. -/
def ValueErrorIn (messages : String → Prop) (raised : PyError) : Prop :=
  ∃ message, raised = .valueError message ∧ messages message

/-! ## Chunked buffers -/

theorem completed_eq (data : Bytes) : completed data = data ++ chunkPadding data.length := by
  unfold completed chunkPadding chunkSize
  split
  · rw [List.append_nil]
  · rfl

theorem chunkPadding_of_whole {length : Nat} (whole : length % chunkSize = 0) :
    chunkPadding length = [] := if_pos whole

theorem length_flatten_chunks {chunks : List Bytes} (each : ∀ chunk ∈ chunks, chunk.length = 32) :
    chunks.flatten.length = 32 * chunks.length := by
  induction chunks with
  | nil => rfl
  | cons chunk rest ih =>
      rw [List.flatten_cons, List.length_append, each _ List.mem_cons_self,
        ih fun other member => each other (List.mem_cons_of_mem _ member), List.length_cons]
      omega

theorem slice_flatten {chunks : List Bytes} (each : ∀ chunk ∈ chunks, chunk.length = 32)
    {index : Nat} (inside : index < chunks.length) :
    (chunks.flatten.drop (32 * index)).take 32 = chunks[index] := by
  induction chunks generalizing index with
  | nil => exact absurd inside (Nat.not_lt_zero _)
  | cons chunk rest ih =>
      have width : chunk.length = 32 := each _ List.mem_cons_self
      cases index with
      | zero =>
          rw [Nat.mul_zero, List.drop_zero, List.flatten_cons, List.take_left' width]
          rfl
      | succ index =>
          have later := ih (fun other member => each other (List.mem_cons_of_mem _ member))
            (Nat.lt_of_succ_lt_succ inside)
          have offset : 32 * (index + 1) = chunk.length + 32 * index := by omega
          rw [List.flatten_cons, offset, List.drop_length_add_append]
          exact later

/-- Whole chunks are cut out again. -/
theorem slices_flatten {chunks : List Bytes} (each : ∀ chunk ∈ chunks, chunk.length = 32) :
    slices chunks.flatten = chunks := by
  have length := length_flatten_chunks each
  unfold slices chunkSize
  rw [length, Nat.mul_div_cancel_left _ (by decide)]
  apply List.ext_getElem
  · rw [List.length_map, List.length_range]
  · intro index _ inside
    rw [List.getElem_map, List.getElem_range, slice_flatten each inside]

/-- The chunks of data make up the padded data. -/
theorem flatten_chunkify (data : Bytes) :
    (chunkify data).flatten = data ++ chunkPadding data.length := by
  rw [← completed_eq]
  have count := length_completed data
  have width := length_flatten_chunks (@length_chunk_of_chunkify data)
  rw [length_chunkify] at width
  apply List.ext_getElem (width.trans count.symm)
  intro position inFlat inside
  have index : position / 32 < (chunkify data).length := by
    rw [length_chunkify]
    omega
  have slice := slice_flatten (@length_chunk_of_chunkify data) index
  have entry : (chunkify data)[position / 32] =
      ((completed data).drop (32 * (position / 32))).take 32 := by
    simp only [chunkify_eq, List.getElem_map, List.getElem_range]
  rw [entry] at slice
  have byte := congrArg (fun chunk => chunk[position % 32]?) slice
  have offset : position % 32 < 32 := Nat.mod_lt _ (by decide)
  simp only [List.getElem?_take, offset, if_true, List.getElem?_drop, Nat.div_add_mod,
    List.getElem?_eq_getElem inFlat, List.getElem?_eq_getElem inside, Option.some.injEq] at byte
  exact byte

/-! ## Merkleizing with a limit -/

variable {sha256 : Bytes → Bytes}

theorem zeroHashAt_eq_ok {level : Nat} (within : level ≤ maxDepth) :
    zeroHashAt sha256 level = .ok (zeroHash sha256 level) := by
  have present : (zeroHashes sha256)[level]? = some (zeroHash sha256 level) := by
    rw [zeroHashes, List.getElem?_map, List.getElem?_range (Nat.lt_succ_of_le within)]
    rfl
  rw [zeroHashAt, present]

/-- The levels below 65 complete their layers from the table. -/
theorem mergeLevels_eq_ok (chunks : List Bytes) (remaining level : Nat)
    (within : level + remaining ≤ maxDepth + 1) :
    mergeLevels sha256 remaining level (layerAt sha256 chunks level) =
      .ok (layerAt sha256 chunks (level + remaining)) := by
  induction remaining generalizing level with
  | zero => rfl
  | succ remaining ih =>
      have table := @zeroHashAt_eq_ok sha256 level (by omega)
      have next := ih (level + 1) (by omega)
      have levels : level + (remaining + 1) = level + 1 + remaining := by omega
      rw [mergeLevels, levels, ← next, layerAt, nextLayer]
      by_cases even : (layerAt sha256 chunks level).length % 2 = 0
      · rw [if_pos even, if_pos even]
        rfl
      · rw [if_neg even, if_neg even, table]
        rfl

theorem chunkCountDepth_le {capacity : Nat} (bound : capacity ≤ 2 ^ 64) :
    chunkCountDepth capacity ≤ maxDepth :=
  chunkCountDepth_le_iff.mpr bound

/-- Chunks within a positive limit have the root of the tree of that capacity. -/
theorem merkleizeWithin_limit {chunks : List Bytes} {limit : Nat} (positive : 0 < limit)
    (bound : limit ≤ 2 ^ 64) (fits : chunks.length ≤ limit) :
    merkleizeWithin sha256 chunks limit = .ok (chunkRoot sha256 chunks limit) := by
  have depth := chunkCountDepth_le bound
  unfold merkleizeWithin
  rw [if_neg (fun oversized => Nat.not_le.mpr oversized.2 fits)]
  simp only [Nat.ne_of_gt positive, if_false]
  by_cases single : limit = 1
  · subst single
    match chunks, fits with
    | [], _ => rfl
    | [chunk], _ => rfl
    | _ :: _ :: _, fits => exact absurd fits (by simp)
  · rw [if_neg single]
    cases chunks with
    | nil =>
        have empty : ∀ level, layerAt sha256 [] level = [] := by
          intro level
          induction level with
          | zero => rfl
          | succ level ih => rw [layerAt, ih]; rfl
        simp only [List.length_nil, if_true]
        rw [zeroHashAt_eq_ok depth, chunkRoot, empty]
        rfl
    | cons chunk rest =>
        have merged := @mergeLevels_eq_ok sha256 (chunk :: rest) (chunkCountDepth limit) 0
          (by omega)
        rw [Nat.zero_add] at merged
        have some_root := @layerAt_ne_nil sha256 _ (List.cons_ne_nil chunk rest)
          (chunkCountDepth limit)
        change mergeLevels sha256 (chunkCountDepth limit) 0 (chunk :: rest) = _ at merged
        simp only [List.length_cons, Nat.succ_ne_zero, if_false]
        rw [merged, chunkRoot]
        cases root : layerAt sha256 (chunk :: rest) (chunkCountDepth limit) with
        | nil => exact absurd root some_root
        | cons node others => rfl

/-- Without a limit the tree is sized to the chunks. -/
theorem merkleizeWithin_zero {chunks : List Bytes} (bound : chunks.length ≤ 2 ^ 64) :
    merkleizeWithin sha256 chunks 0 = .ok (chunkRoot sha256 chunks chunks.length) := by
  cases chunks with
  | nil => rfl
  | cons chunk rest =>
      have sized := @merkleizeWithin_limit sha256 (chunk :: rest) (chunk :: rest).length
        (Nat.succ_pos _) bound (Nat.le_refl _)
      rw [← sized]
      simp [merkleizeWithin]

/-- `merkleize` without a limit, for every number of chunks a list can have. -/
theorem merkleizeWithin_eq_merkleize {chunks : List Bytes} (bound : chunks.length ≤ 2 ^ 64) :
    merkleizeWithin sha256 chunks 0 = .ok (Encoding.merkleize sha256 chunks) := by
  rw [merkleizeWithin_zero bound, chunkRoot]
  match chunks with
  | [] => rfl
  | [chunk] => rfl
  | first :: second :: rest =>
      have some_root := @layerAt_ne_nil sha256 _ (List.cons_ne_nil first (second :: rest))
        (chunkCountDepth (first :: second :: rest).length)
      rw [Encoding.merkleize]
      · cases root : layerAt sha256 (first :: second :: rest)
          (chunkCountDepth (first :: second :: rest).length) with
        | nil => exact absurd root some_root
        | cons node others => rfl
      · simp
      · simp

/-- More chunks than a positive limit are refused. -/
theorem merkleizeWithin_yields {chunks : List Bytes} {limit : Nat} (positive : 0 < limit)
    (bound : limit ≤ 2 ^ 64) :
    Yields (ValueErrorIn CapacityError) (merkleizeWithin sha256 chunks limit)
      (chunks.length ≤ limit) (chunkRoot sha256 chunks limit) := by
  refine ⟨merkleizeWithin_limit positive bound, fun oversized => ?_⟩
  have exceeds : limit ≠ 0 ∧ limit < chunks.length := ⟨Nat.ne_of_gt positive, Nat.not_le.mp oversized⟩
  exact ⟨_, if_pos exceeds, _, rfl, .list chunks.length limit⟩

/-! ## Walks -/

namespace HashWalker

/-- The walker whose buffer holds the roots of some values. -/
def holding (sha256 : Bytes → Bytes) (values : List SszValue) : HashWalker :=
  ⟨(SszValue.roots sha256 values).flatten⟩

theorem holding_nil : holding sha256 [] = new := rfl

theorem take_append (done : List SszValue) (rest : Bytes) :
    ((SszValue.roots sha256 done).flatten ++ rest).take (holding sha256 done).index =
      (SszValue.roots sha256 done).flatten :=
  List.take_left

/-- Chunks appended to a walk are found again from its index on. -/
theorem chunksFrom_append (done : List SszValue) {chunks : List Bytes}
    (each : ∀ chunk ∈ chunks, chunk.length = 32) :
    chunksFrom ⟨(SszValue.roots sha256 done).flatten ++ chunks.flatten⟩
      (holding sha256 done).index = .ok chunks := by
  have whole : chunks.flatten.length % chunkSize = 0 := by
    rw [length_flatten_chunks each, chunkSize, Nat.mul_mod_right]
  simp only [chunksFrom, index, holding, List.drop_left]
  rw [if_neg (not_not_intro whole), slices_flatten each]

/-- Everything since the start collapses to the root of its chunks. -/
theorem merkleize_append (done : List SszValue) {chunks : List Bytes}
    (each : ∀ chunk ∈ chunks, chunk.length = 32) (bound : chunks.length ≤ 2 ^ 64) :
    merkleize sha256 ⟨(SszValue.roots sha256 done).flatten ++ chunks.flatten⟩
        (holding sha256 done).index =
      .ok ⟨(SszValue.roots sha256 done).flatten ++ chunkRoot sha256 chunks chunks.length⟩ := by
  rw [merkleize, chunksFrom_append done each, ok_bind, merkleizeWithin_zero bound, take_append]
  rfl

theorem toBytesLittle_eq_ok {num : Nat} (small : num < 2 ^ 64) :
    toBytesLittle uint64Size num = .ok (littleEndian uint64Size num) := by
  have whole : 2 ^ 64 ≤ 256 ^ uint64Size := by decide
  exact if_pos (Nat.lt_of_lt_of_le small whole)

section Spec

variable (digest : ∀ data, (sha256 data).length = 32)

include digest

theorem length_flatten_roots (values : List SszValue) :
    (SszValue.roots sha256 values).flatten.length = 32 * values.length := by
  rw [length_flatten_chunks (SszValue.length_of_mem_roots digest values), SszValue.length_roots]

/-- Everything since the start collapses to its root with the length mixed in, unless it
exceeds the limit. -/
theorem merkleizeWithMixin_append (done : List SszValue) {chunks : List Bytes}
    (each : ∀ chunk ∈ chunks, chunk.length = 32) {num limit : Nat} (positive : 0 < limit)
    (bound : limit ≤ 2 ^ 64) (small : chunks.length ≤ limit → num < 2 ^ 64) :
    Yields (ValueErrorIn CapacityError)
      (merkleizeWithMixin sha256 ⟨(SszValue.roots sha256 done).flatten ++ chunks.flatten⟩
        (holding sha256 done).index num limit)
      (chunks.length ≤ limit)
      ⟨(SszValue.roots sha256 done).flatten ++
        mixIn sha256 (chunkRoot sha256 chunks limit) num⟩ := by
  have aligned : ((SszValue.roots sha256 done).flatten ++ chunks.flatten).length % chunkSize = 0 := by
    rw [List.length_append, length_flatten_roots digest, length_flatten_chunks each, chunkSize]
    omega
  have filled : fillUpTo32 ⟨(SszValue.roots sha256 done).flatten ++ chunks.flatten⟩ =
      ⟨(SszValue.roots sha256 done).flatten ++ chunks.flatten⟩ := by
    rw [fillUpTo32, chunkPadding_of_whole aligned, List.append_nil]
  have merkleized := @merkleizeWithin_yields sha256 chunks limit positive bound
  rw [merkleizeWithMixin, filled, chunksFrom_append done each, ok_bind, take_append]
  constructor
  · intro fits
    rw [merkleized.returns fits, ok_bind, toBytesLittle_eq_ok (small fits), ok_bind,
      length_littleEndian]
    rfl
  · intro oversized
    obtain ⟨raised, equal, named⟩ := merkleized.raises oversized
    rw [equal]
    exact ⟨raised, rfl, named⟩

/-- Closing a container leaves its root. -/
theorem merkleize_holding (done members : List SszValue) (bound : members.length ≤ 2 ^ 64) :
    merkleize sha256 (holding sha256 (done ++ members)) (holding sha256 done).index =
      .ok (holding sha256 (done ++ [.container members])) := by
  have few : (SszValue.roots sha256 members).length ≤ 2 ^ 64 := by
    rw [SszValue.length_roots]
    exact bound
  have closed := @merkleize_append sha256 done _ (SszValue.length_of_mem_roots digest members) few
  rw [SszValue.length_roots] at closed
  simp only [holding, SszValue.roots_append, List.flatten_append] at closed ⊢
  rw [closed, SszValue.roots, SszValue.roots, List.flatten_singleton, SszValue.root]

/-- Closing a list leaves its root with the length mixed in. -/
theorem merkleizeWithMixin_holding (done members : List SszValue) {limit : Nat}
    (positive : 0 < limit) (bound : limit < 2 ^ 64) :
    Yields (ValueErrorIn CapacityError)
      (merkleizeWithMixin sha256 (holding sha256 (done ++ members)) (holding sha256 done).index
        members.length limit)
      (members.length ≤ limit)
      (holding sha256 (done ++ [.list limit members])) := by
  have small : (SszValue.roots sha256 members).length ≤ limit → members.length < 2 ^ 64 := by
    rw [SszValue.length_roots]
    exact fun fits => Nat.lt_of_le_of_lt fits bound
  have closed := merkleizeWithMixin_append digest done
    (SszValue.length_of_mem_roots digest members) positive (Nat.le_of_lt bound) small
  rw [SszValue.length_roots] at closed
  simp only [holding, SszValue.roots_append, List.flatten_append] at closed ⊢
  rw [SszValue.roots, SszValue.roots, List.flatten_singleton, SszValue.root]
  exact closed

omit digest in
theorem appendBytes32_holding (done : List SszValue) (data : Bytes) :
    (holding sha256 done).appendBytes32 data =
      ⟨(SszValue.roots sha256 done).flatten ++ (chunkify data).flatten⟩ := by
  rw [flatten_chunkify, ← List.append_assoc]
  rfl

omit digest in
theorem holding_vector (done : List SszValue) (data : Bytes) :
    holding sha256 (done ++ [.vector data]) = ⟨(SszValue.roots sha256 done).flatten ++
      chunkRoot sha256 (chunkify data) (chunkify data).length⟩ := by
  simp only [holding, SszValue.roots_append, List.flatten_append, SszValue.roots,
    List.flatten_singleton, SszValue.root]

omit digest in
/-- Data of one chunk is its own root. -/
theorem chunkRoot_single {data : Bytes} (single : (chunkify data).length = 1) :
    chunkRoot sha256 (chunkify data) (chunkify data).length = (chunkify data).flatten := by
  match chunks : chunkify data, single with
  | [chunk], _ => exact (List.flatten_singleton).symm

/-- A byte string leaves at most one root: an empty one leaves nothing. -/
def bytesValues (data : Bytes) : List SszValue := if data = [] then [] else [.vector data]

omit digest in
theorem putBytes_holding (done : List SszValue) {data : Bytes}
    (bound : data.length < 2 ^ 63) :
    putBytes sha256 (holding sha256 done) data =
      .ok (holding sha256 (done ++ bytesValues data)) := by
  unfold putBytes
  rw [appendBytes32_holding]
  have count := length_chunkify data
  by_cases short : data.length ≤ chunkSize
  · rw [if_pos short]
    by_cases empty : data = []
    · subst empty
      simp [bytesValues, chunkify, holding]
    · have single : (chunkify data).length = 1 := by
        have some_byte := List.length_pos_iff.mpr empty
        rw [chunkSize] at short
        omega
      rw [bytesValues, if_neg empty, holding_vector, chunkRoot_single single]
  · have nonempty : data ≠ [] := by
      rintro rfl
      exact short (Nat.zero_le _)
    rw [if_neg short, merkleize_append done length_chunk_of_chunkify (by omega), bytesValues,
      if_neg nonempty, holding_vector]

omit digest in
/-- One chunk of data leaves one root. -/
theorem appendBytes32_vector (done : List SszValue) {data : Bytes}
    (single : (chunkify data).length = 1) :
    (holding sha256 done).appendBytes32 data = holding sha256 (done ++ [.vector data]) := by
  rw [appendBytes32_holding, holding_vector, chunkRoot_single single]

end Spec

end HashWalker

/-! ## Fields -/

open HashWalker

/-- The chunk capacity of a byte list. -/
def byteListValue (maxBytes : Nat) (data : Bytes) : SszValue :=
  .packed ((maxBytes + chunkSize - 1) / chunkSize) data.length data

/-- A 64-bit integer as a value. -/
def uint64Value (value : Nat) : SszValue := .vector (littleEndian uint64Size value)

def boolValue (value : Bool) : SszValue := .vector (if value then [1] else [0])

/-- A fixed-size byte vector, short ones left-padded. -/
def bytesNValue (size : Nat) (data : Bytes) : SszValue := .vector (rightJustified size data)

/-- A list of 64-bit integers with its capacity. -/
def uint64ListValue (maxCapacity : Nat) (values : List Nat) : SszValue :=
  .packed ((maxCapacity * uint64Size + chunkSize - 1) / chunkSize) values.length
    (values.flatMap (littleEndian uint64Size))

theorem holding_packed (done : List SszValue) (limit count : Nat) (data : Bytes) :
    holding sha256 (done ++ [.packed limit count data]) =
      ⟨(SszValue.roots sha256 done).flatten ++
        mixIn sha256 (chunkRoot sha256 (chunkify data) limit) count⟩ := by
  simp only [holding, SszValue.roots_append, List.flatten_append, SszValue.roots,
    List.flatten_singleton, SszValue.root]

theorem length_rightJustified {size : Nat} {data : Bytes} (fits : data.length ≤ size) :
    (rightJustified size data).length = size := by
  rw [rightJustified, List.length_append, List.length_replicate]
  omega

theorem uint64Bytes_eq_ok {value : Nat} (small : value < 2 ^ 64) :
    uint64Bytes value = .ok (littleEndian uint64Size value) := by
  have range : (0 : Int) ≤ value ∧ (value : Int) < 2 ^ 64 := by omega
  rw [uint64Bytes, if_pos range, Int.toNat_natCast, toBytesLittle_eq_ok small]

theorem putBytesN_yields (done : List SszValue) (data : Bytes) {size : Nat} (positive : 0 < size)
    (bound : size < 2 ^ 63) (field : String) :
    Yields (ValueErrorIn CapacityError) (putBytesN sha256 (holding sha256 done) data size field)
      (data.length ≤ size) (holding sha256 (done ++ [bytesNValue size data])) := by
  unfold putBytesN
  constructor
  · intro fits
    have length := length_rightJustified fits
    have nonempty : rightJustified size data ≠ [] :=
      List.ne_nil_of_length_pos (length.symm ▸ positive)
    rw [if_neg (Nat.not_lt.mpr fits), putBytes_holding done (length.symm ▸ bound), bytesValues,
      if_neg nonempty, bytesNValue]
  · intro oversized
    exact ⟨_, if_pos (Nat.not_le.mp oversized), _, rfl, .bytesN field data.length size⟩

theorem putUint64_holding (done : List SszValue) {value : Nat} (small : value < 2 ^ 64) :
    putUint64 (holding sha256 done) value = .ok (holding sha256 (done ++ [uint64Value value])) := by
  have single : (chunkify (littleEndian uint64Size value)).length = 1 := by
    rw [length_chunkify, length_littleEndian]
    rfl
  rw [putUint64, uint64Bytes_eq_ok small, ok_bind, appendBytes32_vector done single, uint64Value]

theorem putBool_holding (done : List SszValue) (value : Bool) :
    putBool (holding sha256 done) value = holding sha256 (done ++ [boolValue value]) := by
  rw [putBool, boolValue, appendBytes32_vector done]
  cases value <;> rfl

section Lists

variable (digest : ∀ data, (sha256 data).length = 32)

include digest

theorem putByteList_yields (done : List SszValue) (data : Bytes) {maxBytes : Nat}
    (positive : 0 < maxBytes) (bound : maxBytes < 2 ^ 64) (field : String) :
    Yields (ValueErrorIn CapacityError)
      (putByteList sha256 (holding sha256 done) data maxBytes field)
      (data.length ≤ maxBytes) (holding sha256 (done ++ [byteListValue maxBytes data])) := by
  unfold putByteList
  constructor
  · intro fits
    have capacity : 0 < (maxBytes + chunkSize - 1) / chunkSize ∧
        (maxBytes + chunkSize - 1) / chunkSize ≤ 2 ^ 64 ∧
        (chunkify data).length ≤ (maxBytes + chunkSize - 1) / chunkSize := by
      rw [length_chunkify]
      unfold chunkSize
      omega
    have closed := merkleizeWithMixin_append digest done (@length_chunk_of_chunkify data)
      capacity.1 capacity.2.1 (fun _ => Nat.lt_of_le_of_lt fits bound)
    rw [if_neg (Nat.not_lt.mpr fits), appendBytes32_holding, closed.returns capacity.2.2,
      byteListValue, holding_packed]
  · intro oversized
    exact ⟨_, if_pos (Nat.not_le.mp oversized), _, rfl, .byteList field data.length maxBytes⟩

omit digest in
/-- The values of a list are appended one after another. -/
theorem foldlM_putPacked {values : List Nat} (small : ∀ value ∈ values, value < 2 ^ 64)
    (walker : HashWalker) :
    (values.map Int.ofNat).foldlM putPacked walker =
      .ok ⟨walker.buffer ++ values.flatMap (littleEndian uint64Size)⟩ := by
  induction values generalizing walker with
  | nil => rw [List.flatMap_nil, List.append_nil]; rfl
  | cons value rest ih =>
      have later := ih (fun other member => small other (List.mem_cons_of_mem _ member))
        ⟨walker.buffer ++ littleEndian uint64Size value⟩
      have packed : putPacked walker (Int.ofNat value) =
          .ok ⟨walker.buffer ++ littleEndian uint64Size value⟩ := by
        rw [putPacked, Int.ofNat_eq_natCast, uint64Bytes_eq_ok (small value List.mem_cons_self)]
        rfl
      rw [List.map_cons, List.foldlM_cons, packed, ok_bind, later, List.flatMap_cons,
        List.append_assoc]

omit digest in
theorem length_packed (values : List Nat) :
    (values.flatMap (littleEndian uint64Size)).length = 8 * values.length := by
  rw [List.length_flatMap]
  simp [uint64Size, Nat.mul_comm]

theorem putUint64Array_yields (done : List SszValue) {values : List Nat}
    (small : ∀ value ∈ values, value < 2 ^ 64) {maxCapacity : Nat} (positive : 0 < maxCapacity)
    (whole : maxCapacity % 4 = 0) (bound : maxCapacity < 2 ^ 62) :
    Yields (ValueErrorIn CapacityError)
      (putUint64Array sha256 (holding sha256 done) (values.map Int.ofNat) maxCapacity)
      (values.length ≤ maxCapacity)
      (holding sha256 (done ++ [uint64ListValue maxCapacity values])) := by
  have quarter : (maxCapacity * uint64Size + chunkSize - 1) / chunkSize = maxCapacity / 4 := by
    unfold uint64Size chunkSize
    omega
  have capacity : calculateLimit maxCapacity values.length uint64Size = maxCapacity / 4 := by
    rw [calculateLimit, quarter]
    exact if_pos (by omega)
  have fits : (chunkify (values.flatMap (littleEndian uint64Size))).length ≤ maxCapacity / 4 ↔
      values.length ≤ maxCapacity := by
    rw [length_chunkify, length_packed]
    omega
  have filled : fillUpTo32 ⟨(holding sha256 done).buffer ++
      values.flatMap (littleEndian uint64Size)⟩ =
      (holding sha256 done).appendBytes32 (values.flatMap (littleEndian uint64Size)) := by
    have aligned := length_flatten_roots digest done
    have same : ((holding sha256 done).buffer ++
        values.flatMap (littleEndian uint64Size)).length % chunkSize =
        (values.flatMap (littleEndian uint64Size)).length % chunkSize := by
      rw [List.length_append, holding, aligned, chunkSize]
      omega
    rw [fillUpTo32, appendBytes32, chunkPadding, chunkPadding, same]
  have closed := merkleizeWithMixin_append digest done
    (@length_chunk_of_chunkify (values.flatMap (littleEndian uint64Size)))
    (by omega : 0 < maxCapacity / 4) (by omega)
    (fun within => (by have few := fits.mp within; omega : values.length < 2 ^ 64))
  rw [putUint64Array, List.length_map, foldlM_putPacked small, ok_bind, filled, capacity,
    appendBytes32_holding, uint64ListValue, quarter, holding_packed]
  exact closed.congr fits

end Lists

/-- A finished walk holds one root. -/
theorem hashRoot_holding (digest : ∀ data, (sha256 data).length = 32) (value : SszValue) :
    (holding sha256 [value]).hashRoot = .ok (value.root sha256) := by
  have width := SszValue.length_root digest value
  have buffer : (holding sha256 [value]).buffer = value.root sha256 := by
    simp [holding, SszValue.roots]
  simp only [hashRoot, buffer, width]
  exact if_neg (not_not_intro rfl)

/-! ## Walks that append values -/

/-- A walk that appends the roots of some values to whatever the walker holds, exactly when
they fit, and otherwise raises an error of the given kind. -/
def Appends (sha256 : Bytes → Bytes) (kind : PyError → Prop)
    (walk : HashWalker → Except PyError HashWalker) (fits : Prop) (values : List SszValue) : Prop :=
  ∀ done, Yields kind (walk (holding sha256 done)) fits (holding sha256 (done ++ values))

namespace Appends

variable {kind : PyError → Prop} {first second : HashWalker → Except PyError HashWalker}
  {fits rest : Prop} {members values : List SszValue}

theorem congr (walk : Appends sha256 kind first fits values) {condition : Prop}
    (same : fits ↔ condition) : Appends sha256 kind first condition values :=
  fun done => (walk done).congr same

theorem seq (here : Appends sha256 kind first fits members)
    (later : Appends sha256 kind second rest values) :
    Appends sha256 kind (fun walker => first walker >>= second) (fits ∧ rest)
      (members ++ values) := by
  intro done
  rw [← List.append_assoc]
  exact (here done).bind (later _)

/-- A field that is left out of some walks. -/
theorem skippable (walk : Appends sha256 kind first fits values) (skipped : Bool) :
    Appends sha256 kind (fun walker => if skipped then .ok walker else first walker)
      (skipped = false → fits) (if skipped then [] else values) := by
  intro done
  cases skipped with
  | true =>
      rw [if_pos rfl, List.append_nil]
      exact (Yields.of_ok _).congr (by simp)
  | false => exact (walk done).congr (by simp)

/-- Closing a container. -/
theorem container (digest : ∀ data, (sha256 data).length = 32)
    (walk : Appends sha256 kind first fits members) (bound : members.length ≤ 2 ^ 64) :
    Appends sha256 kind
      (fun walker => first walker >>= fun filled => filled.merkleize sha256 walker.index) fits
      [.container members] := by
  intro done
  have closed := merkleize_holding digest done members bound
  exact ((walk done).bind (Yields.of_eq_ok closed)).congr (by simp)

/-- Closing a list after the loop over its items. -/
theorem list {α : Type} (digest : ∀ data, (sha256 data).length = 32)
    (within : ∀ raised, ValueErrorIn CapacityError raised → kind raised)
    {body : HashWalker → α → Except PyError HashWalker} {fitting : α → Prop} {value : α → SszValue}
    {items : List α} (each : ∀ item ∈ items,
      Appends sha256 kind (fun walker => body walker item) (fitting item) [value item])
    {limit : Nat} (positive : 0 < limit) (bound : limit < 2 ^ 64) :
    Appends sha256 kind
      (fun walker => items.foldlM body walker >>= fun filled =>
        filled.merkleizeWithMixin sha256 walker.index items.length limit)
      ((∀ item ∈ items, fitting item) ∧ items.length ≤ limit)
      [.list limit (items.map value)] := by
  intro done
  have step : ∀ item ∈ items, ∀ before,
      Yields kind (body (holding sha256 (done ++ List.map value before)) item) (fitting item)
        (holding sha256 (done ++ List.map value (before ++ [item]))) := by
    intro item member before
    rw [List.map_append, ← List.append_assoc]
    exact each item member _
  have loop := @Yields.foldlM _ _ _ kind body fitting
    (fun before => holding sha256 (done ++ List.map value before)) items step []
  have closed := merkleizeWithMixin_holding digest done (items.map value) positive bound
  rw [List.map_nil, List.append_nil, List.nil_append] at loop
  rw [List.length_map] at closed
  exact loop.bind (closed.mono within)

end Appends

end DvSpec.Encoding
