import DvSpec.Encoding.Ssz
import Mathlib.Algebra.Group.Nat.Defs
import Mathlib.Algebra.Ring.Int.Defs

/-!
# The SSZ hash walker

Cluster files are hashed field by field into one chunk buffer.  A container or a
list is closed by replacing everything appended since its start with its root;
lists mix in their length.  A call that raises leaves no walker behind.
-/

namespace DvSpec.Encoding

/-- Size in bytes of an SSZ uint64, before it is padded into a chunk. -/
def uint64Size : Nat := 8

/-- Number of zero-hash levels precomputed. -/
def maxDepth : Nat := 64

/-- `_zero_hashes()`: the zero-subtree hash for each level, bottom up. -/
def zeroHashes (sha256 : Bytes → Bytes) : List Bytes :=
  (List.range (maxDepth + 1)).map (zeroHash sha256)

/-- `ZERO_HASHES[level]`. -/
def zeroHashAt (sha256 : Bytes → Bytes) (level : Nat) : Except PyError Bytes :=
  match (zeroHashes sha256)[level]? with
  | none => .error .indexError
  | some hash => .ok hash

/-- The chunk capacity of a list of fixed-size items. -/
def calculateLimit (maxCapacity numItems itemSize : Nat) : Nat :=
  let limit := (maxCapacity * itemSize + chunkSize - 1) / chunkSize
  if limit ≠ 0 then limit else if numItems ≠ 0 then numItems else 1

/-- The loop of `merkleize` over the levels from `level` on. -/
def mergeLevels (sha256 : Bytes → Bytes) :
    Nat → Nat → List Bytes → Except PyError (List Bytes)
  | 0, _, layer => .ok layer
  | remaining + 1, level, layer => do
      let layer ←
        if layer.length % 2 = 0 then .ok layer
        else (zeroHashAt sha256 level).map fun hash => layer ++ [hash]
      mergeLevels sha256 remaining (level + 1) (hashPairs sha256 layer)

/-- `merkleize(chunks, limit)`: a zero limit sizes the tree to the chunks present. -/
def merkleizeWithin (sha256 : Bytes → Bytes) (chunks : List Bytes) (limit : Nat) :
    Except PyError Bytes :=
  let count := chunks.length
  if limit ≠ 0 ∧ limit < count then
    .error (.valueError s!"{count} chunks exceed the limit of {limit}")
  else
    let limit := if limit = 0 then count else limit
    if limit = 0 then .ok zeroChunk
    else if limit = 1 then
      .ok (match chunks with
        | [chunk] => chunk
        | _ => zeroChunk)
    else
      let depth := chunkCountDepth limit
      if count = 0 then zeroHashAt sha256 depth
      else do
        let layer ← mergeLevels sha256 depth 0 chunks
        match layer with
        | [] => .error .indexError
        | root :: _ => .ok root

/-- The `size` low bytes of a value, least significant first. -/
def littleEndian (size value : Nat) : Bytes :=
  (List.range size).map fun index => UInt8.ofNat (value / 256 ^ index % 256)

/-- `int.to_bytes(size, "little")`. -/
def toBytesLittle (size value : Nat) : Except PyError Bytes :=
  if value < 256 ^ size then .ok (littleEndian size value) else .error .overflowError

/-- Encode a uint64 little-endian. -/
def uint64Bytes (value : Int) : Except PyError Bytes :=
  if 0 ≤ value ∧ value < 2 ^ 64 then toBytesLittle uint64Size value.toNat
  else .error (.valueError s!"{value} is out of range for a uint64")

/-- The zeros that complete a length to a whole number of chunks. -/
def chunkPadding (length : Nat) : Bytes :=
  if length % chunkSize = 0 then [] else List.replicate (chunkSize - length % chunkSize) 0

/-- The slices `data[i : i + 32]` at every multiple of 32. -/
def slices (data : Bytes) : List Bytes :=
  (List.range (data.length / chunkSize)).map fun index =>
    (data.drop (chunkSize * index)).take chunkSize

/-- An incremental SSZ hasher over a single chunk buffer. -/
structure HashWalker where
  buffer : Bytes
  deriving DecidableEq

namespace HashWalker

/-- An empty walk. -/
def new : HashWalker := ⟨[]⟩

/-- The current buffer position, to merkleize back to later. -/
def index (walker : HashWalker) : Nat := walker.buffer.length

/-- Append data, right-padded with zeros to a whole number of chunks. -/
def appendBytes32 (walker : HashWalker) (data : Bytes) : HashWalker :=
  ⟨walker.buffer ++ data ++ chunkPadding data.length⟩

/-- Right-pad the buffer with zeros to a chunk boundary. -/
def fillUpTo32 (walker : HashWalker) : HashWalker :=
  ⟨walker.buffer ++ chunkPadding walker.buffer.length⟩

/-- The buffer from `start` split into whole chunks. -/
def chunksFrom (walker : HashWalker) (start : Nat) : Except PyError (List Bytes) :=
  let data := walker.buffer.drop start
  if data.length % chunkSize ≠ 0 then
    let length := data.length
    .error (.valueError s!"buffer is not chunk aligned: {length} bytes since {start}")
  else .ok (slices data)

variable (sha256 : Bytes → Bytes)

/-- Replace everything appended since `start` with its hash root. -/
def merkleize (walker : HashWalker) (start : Nat) : Except PyError HashWalker := do
  let chunks ← walker.chunksFrom start
  let root ← merkleizeWithin sha256 chunks 0
  .ok ⟨walker.buffer.take start ++ root⟩

/-- Replace everything since `start` with its root, length mixed in. -/
def merkleizeWithMixin (walker : HashWalker) (start num limit : Nat) :
    Except PyError HashWalker := do
  let walker := walker.fillUpTo32
  let chunks ← walker.chunksFrom start
  let root ← merkleizeWithin sha256 chunks limit
  let mixin ← toBytesLittle uint64Size num
  .ok ⟨walker.buffer.take start ++
    sha256 (root ++ (mixin ++ List.replicate (chunkSize - mixin.length) 0))⟩

/-- Append a byte string of any length, as at most a single chunk. -/
def putBytes (walker : HashWalker) (data : Bytes) : Except PyError HashWalker :=
  if data.length ≤ chunkSize then .ok (walker.appendBytes32 data)
  else (walker.appendBytes32 data).merkleize sha256 walker.index

/-- Append a little-endian uint64, right-padded into one chunk. -/
def putUint64 (walker : HashWalker) (value : Int) : Except PyError HashWalker := do
  let bytes ← uint64Bytes value
  .ok (walker.appendBytes32 bytes)

/-- Append a boolean as one chunk. -/
def putBool (walker : HashWalker) (value : Bool) : HashWalker :=
  walker.appendBytes32 (if value then [1] else [0])

/-- Append one value of a uint64 list, unpadded. -/
def putPacked (walker : HashWalker) (value : Int) : Except PyError HashWalker := do
  let bytes ← uint64Bytes value
  .ok ⟨walker.buffer ++ bytes⟩

/-- Append a uint64 list as one chunk, with its length mixed in. -/
def putUint64Array (walker : HashWalker) (values : List Int) (maxCapacity : Nat) :
    Except PyError HashWalker := do
  let start := walker.index
  let count := values.length
  let walker ← values.foldlM putPacked walker
  walker.fillUpTo32.merkleizeWithMixin sha256 start count
    (calculateLimit maxCapacity count uint64Size)

/-- The hash root, once the walk has collapsed to one chunk. -/
def hashRoot (walker : HashWalker) : Except PyError Bytes :=
  let length := walker.buffer.length
  if length ≠ chunkSize then
    .error (.valueError s!"incomplete walk: {length} bytes buffered, expected 32")
  else .ok walker.buffer

end HashWalker

variable (sha256 : Bytes → Bytes)

/-- Append a variable-length byte string as SSZ `ByteList[max_bytes]`. -/
def putByteList (walker : HashWalker) (data : Bytes) (maxBytes : Nat) (field : String) :
    Except PyError HashWalker :=
  let length := data.length
  if maxBytes < length then
    .error (.valueError s!"{field} is {length} bytes, over the {maxBytes} byte limit")
  else
    (walker.appendBytes32 data).merkleizeWithMixin sha256 walker.index length
      ((maxBytes + chunkSize - 1) / chunkSize)

/-- `data.rjust(size, b"\x00")`. -/
def rightJustified (size : Nat) (data : Bytes) : Bytes :=
  List.replicate (size - data.length) 0 ++ data

/-- Append a fixed-size byte vector as SSZ `BytesN`; short values are left-padded. -/
def putBytesN (walker : HashWalker) (data : Bytes) (size : Nat) (field : String) :
    Except PyError HashWalker :=
  let length := data.length
  if size < length then
    .error (.valueError s!"{field} is {length} bytes, over the fixed length of {size}")
  else walker.putBytes sha256 (rightJustified size data)

end DvSpec.Encoding
