import DvSpec.Types.Duty

/-!
# SSZ merkleization of a protobuf encoding

`hash_proto` merkleizes a byte string as a list of 32-byte chunks, with no
length mixin, and returns encodings of at most one chunk zero-padded.  The
digest function is a parameter.
-/

namespace DvSpec.Encoding

def chunkSize : Nat := 32

def zeroChunk : Bytes := List.replicate chunkSize 0

@[simp]
theorem length_zeroChunk : zeroChunk.length = 32 := rfl

/-- `ZERO_HASHES[level]`: the root of a zero subtree of that depth. -/
def zeroHash (sha256 : Bytes → Bytes) : Nat → Bytes
  | 0 => zeroChunk
  | level + 1 => sha256 (zeroHash sha256 level ++ zeroHash sha256 level)

/-- Python's `int.bit_length` on a non-negative integer. -/
def bitLength (value : Nat) : Nat := if value = 0 then 0 else Nat.log2 value + 1

/-- The tree depth needed to hold `chunkCount` leaves. -/
def chunkCountDepth (chunkCount : Nat) : Nat :=
  if chunkCount ≤ 1 then 0 else bitLength (1 <<< bitLength (chunkCount - 1)) - 1

/-- Split bytes into 32-byte chunks, right-padding the last one with zeros. -/
def chunkify (data : Bytes) : List Bytes :=
  let remainder := data.length % chunkSize
  let padded :=
    if remainder = 0 then data else data ++ List.replicate (chunkSize - remainder) 0
  (List.range (padded.length / chunkSize)).map fun index =>
    (padded.drop (chunkSize * index)).take chunkSize

/-- Hash the nodes of an even layer pairwise. -/
def hashPairs (sha256 : Bytes → Bytes) : List Bytes → List Bytes
  | left :: right :: rest => sha256 (left ++ right) :: hashPairs sha256 rest
  | _ => []

/-- One level of the tree: complete an odd layer with that level's zero hash, then
hash pairwise. -/
def nextLayer (sha256 : Bytes → Bytes) (level : Nat) (layer : List Bytes) : List Bytes :=
  hashPairs sha256
    (if layer.length % 2 = 0 then layer else layer ++ [zeroHash sha256 level])

/-- The layer reached after the levels below `depth`. -/
def layerAt (sha256 : Bytes → Bytes) (chunks : List Bytes) : Nat → List Bytes
  | 0 => chunks
  | level + 1 => nextLayer sha256 level (layerAt sha256 chunks level)

/-- `merkleize(chunks)` without a limit: the tree is sized to the chunks present. -/
def merkleize (sha256 : Bytes → Bytes) (chunks : List Bytes) : Bytes :=
  match chunks with
  | [] => zeroChunk
  | [chunk] => chunk
  | _ => (layerAt sha256 chunks (chunkCountDepth chunks.length)).headD zeroChunk

/-- The SSZ hash root of a deterministic protobuf encoding. -/
def hashProto (sha256 : Bytes → Bytes) (encoding : Bytes) : Bytes :=
  if encoding.length ≤ chunkSize then
    if encoding = [] then zeroChunk else (chunkify encoding).headD zeroChunk
  else merkleize sha256 (chunkify encoding)

/-! ## Every root is one chunk long -/

theorem length_of_mem_chunkify {data chunk : Bytes} (member : chunk ∈ chunkify data) :
    chunk.length = 32 := by
  unfold chunkify at member
  obtain ⟨index, inRange, rfl⟩ := List.mem_map.mp member
  have bound := List.mem_range.mp inRange
  rw [List.length_take, List.length_drop]
  have room := (Nat.lt_div_iff_mul_lt (by decide : 0 < chunkSize)).mp bound
  simp only [chunkSize] at bound room ⊢
  omega

theorem length_of_mem_hashPairs {sha256 : Bytes → Bytes}
    (digest : ∀ data, (sha256 data).length = 32) (layer : List Bytes) :
    ∀ node ∈ hashPairs sha256 layer, node.length = 32 := by
  induction layer using hashPairs.induct with
  | case1 left right rest ih =>
      intro node member
      rcases List.mem_cons.mp member with rfl | later
      · exact digest _
      · exact ih node later
  | case2 layer small =>
      intro node member
      rw [hashPairs] at member
      · cases member
      · exact small

theorem length_headD {layer : List Bytes} (each : ∀ node ∈ layer, node.length = 32) :
    (layer.headD zeroChunk).length = 32 := by
  cases layer with
  | nil => rfl
  | cons node rest => exact each node List.mem_cons_self

theorem length_of_mem_layerAt {sha256 : Bytes → Bytes}
    (digest : ∀ data, (sha256 data).length = 32) {chunks : List Bytes}
    (each : ∀ chunk ∈ chunks, chunk.length = 32) (level : Nat) :
    ∀ node ∈ layerAt sha256 chunks level, node.length = 32 := by
  cases level with
  | zero => exact each
  | succ level => exact length_of_mem_hashPairs digest _

theorem length_merkleize {sha256 : Bytes → Bytes}
    (digest : ∀ data, (sha256 data).length = 32) {chunks : List Bytes}
    (each : ∀ chunk ∈ chunks, chunk.length = 32) : (merkleize sha256 chunks).length = 32 := by
  unfold merkleize
  split
  · rfl
  · exact each _ List.mem_cons_self
  · exact length_headD (length_of_mem_layerAt digest each _)

theorem length_hashProto {sha256 : Bytes → Bytes}
    (digest : ∀ data, (sha256 data).length = 32) (encoding : Bytes) :
    (hashProto sha256 encoding).length = 32 := by
  unfold hashProto
  split
  · split
    · rfl
    · exact length_headD fun _ member => length_of_mem_chunkify member
  · exact length_merkleize digest fun _ member => length_of_mem_chunkify member

end DvSpec.Encoding
