import DvSpec.Encoding.MerkleTree
import DvSpec.Encoding.Parsing

/-!
# The encoding of a data set binds it

The encoding lists the entries by key, each one delimited, so it can be read back
entry by entry; and as no entry starts with a zero byte, zeros appended to an
encoding are told apart from further entries.
-/

namespace DvSpec.Encoding

open DvSpec.Library

/-! ## Entries -/

theorem prefixCode_encodeDataSetEntry : PrefixCode encodeDataSetEntry := by
  have payload : PrefixCode fun entry : String × Bytes =>
      lengthDelimited 1 (utf8 entry.1) ++ lengthDelimited 2 entry.2 :=
    ((prefixCode_lengthDelimited 1).comp utf8_injective).pair (prefixCode_lengthDelimited 2)
  exact (prefixCode_lengthDelimited 1).comp payload.injective

theorem head?_encodeDataSetEntry (entry : String × Bytes) (tail : Bytes) :
    (encodeDataSetEntry entry ++ tail).head? = some 10 := by
  have key : tag 1 wireTypeLengthDelimited = [10] := by decide +kernel
  exact head?_lengthDelimited_append key _ tail

/-- Zeros are no start of an entry. -/
theorem zeros_ne_entry (count : Nat) (entry : String × Bytes) (tail : Bytes) :
    List.replicate count 0 ≠ encodeDataSetEntry entry ++ tail := by
  intro equal
  have head := congrArg List.head? equal
  rw [head?_encodeDataSetEntry, List.head?_replicate] at head
  split at head
  · cases head
  · exact absurd (Option.some.inj head) (by decide)

/-! ## Sorted entries -/

theorem mem_sortedEntries {entries : Dict String Bytes} {key : String} {value : Bytes} :
    (key, value) ∈ sortedEntries entries ↔ entries.get? key = some value := by
  rw [sortedEntries, List.mem_map]
  constructor
  · rintro ⟨other, member, equal⟩
    obtain ⟨rfl, rfl⟩ := Prod.mk.inj equal
    rw [List.mem_insertionSort, Dict.mem_keys_iff] at member
    obtain ⟨value, stored⟩ := member
    rw [stored]
    rfl
  · intro stored
    refine ⟨key, ?_, by rw [stored]; rfl⟩
    rw [List.mem_insertionSort, Dict.mem_keys_iff]
    exact ⟨value, stored⟩

/-- The sorted entries depend on the mapping only, and determine it. -/
theorem sortedEntries_eq_iff {one two : Dict String Bytes} :
    sortedEntries one = sortedEntries two ↔ ∀ key, one.get? key = two.get? key := by
  constructor
  · intro equal key
    apply Option.ext
    intro value
    rw [← mem_sortedEntries, ← mem_sortedEntries, equal]
  · intro same
    have sameKeys : one.keys.Perm two.keys := by
      refine (List.perm_ext_iff_of_nodup one.keys_nodup two.keys_nodup).mpr fun key => ?_
      rw [Dict.mem_keys_iff, Dict.mem_keys_iff, same]
    have sorted : one.keys.insertionSort (· ≤ ·) = two.keys.insertionSort (· ≤ ·) := by
      have samePerm := (List.perm_insertionSort (· ≤ ·) one.keys).trans
        (sameKeys.trans (List.perm_insertionSort (· ≤ ·) two.keys).symm)
      refine samePerm.eq_of_pairwise ?_ (List.pairwise_insertionSort _ _)
        (List.pairwise_insertionSort _ _)
      intro first second _ _ below above
      exact le_antisymm below above
    simp only [sortedEntries, sorted, same]

/-! ## Encodings -/

/-- Two encodings that agree up to trailing zeros list the same entries, followed by equally
many zeros. -/
theorem encodeUnsignedDataSet_append_zeros {one two : Dict String Bytes} {first second : Nat}
    (equal : encodeUnsignedDataSet one ++ List.replicate first 0 =
      encodeUnsignedDataSet two ++ List.replicate second 0) :
    (∀ key, one.get? key = two.get? key) ∧ first = second := by
  obtain ⟨entries, zeros⟩ := prefixCode_encodeDataSetEntry.flatMap (zeros_ne_entry first)
    (zeros_ne_entry second) equal
  have count := congrArg List.length zeros
  rw [List.length_replicate, List.length_replicate] at count
  exact ⟨sortedEntries_eq_iff.mp entries, count⟩

/-- Encodings are equal exactly when the mappings are; no encoding is another one followed
by zeros; and different mappings whose encodings have trees of one depth have different hash
roots, SHA-256 being injective on the 64-byte inputs of the two trees. -/
theorem dataSet_binding (sha256 : Bytes → Bytes) (digest : ∀ data, (sha256 data).length = 32)
    (one two : Dict String Bytes) :
    (encodeUnsignedDataSet one = encodeUnsignedDataSet two ↔
      ∀ key, one.get? key = two.get? key) ∧
    (∀ zeros, 1 ≤ zeros →
      encodeUnsignedDataSet one ≠ encodeUnsignedDataSet two ++ List.replicate zeros 0) ∧
    (chunkCountDepth (chunkify (encodeUnsignedDataSet one)).length =
        chunkCountDepth (chunkify (encodeUnsignedDataSet two)).length →
      CollisionFree sha256 (treeInputs sha256 (encodeUnsignedDataSet one) ++
        treeInputs sha256 (encodeUnsignedDataSet two)) →
      (∃ key, one.get? key ≠ two.get? key) →
      hashProto sha256 (encodeUnsignedDataSet one) ≠
        hashProto sha256 (encodeUnsignedDataSet two)) := by
  refine ⟨⟨?_, ?_⟩, ?_, ?_⟩
  · intro equal
    exact (encodeUnsignedDataSet_append_zeros (congrArg (· ++ List.replicate 0 0) equal)).1
  · intro same
    rw [encodeUnsignedDataSet, encodeUnsignedDataSet, sortedEntries_eq_iff.mpr same]
  · intro zeros some_zero equal
    have padded : encodeUnsignedDataSet one ++ List.replicate 0 0 =
        encodeUnsignedDataSet two ++ List.replicate zeros 0 := (List.append_nil _).trans equal
    have count := (encodeUnsignedDataSet_append_zeros padded).2
    omega
  · rintro depth free ⟨key, different⟩ equal
    obtain ⟨first, second, padded⟩ :=
      append_zeros_of_getD_eq (getD_eq_of_hashProto_eq digest depth free equal)
    exact different ((encodeUnsignedDataSet_append_zeros padded).1 key)

/-- One validator's data: 32 times the same byte. -/
def singleEntry (byte : UInt8) : Dict String Bytes :=
  Dict.ofEntries [("a", List.replicate 32 byte)]

/-- The SHA-256 digests of the zero-padded encodings of two such data sets. -/
def singleEntryDigests : List (Bytes × Bytes) :=
  [([10, 37, 10, 1, 97, 18, 32] ++ List.replicate 32 1 ++ List.replicate 25 0,
      [254, 45, 134, 126, 117, 62, 98, 144, 117, 216, 5, 200, 43, 72, 15, 62, 70, 89, 135, 12, 15,
        226, 28, 129, 254, 41, 227, 157, 245, 2, 127, 211]),
    ([10, 37, 10, 1, 97, 18, 32] ++ List.replicate 32 2 ++ List.replicate 25 0,
      [120, 86, 65, 114, 226, 5, 200, 45, 88, 40, 52, 201, 253, 224, 55, 5, 30, 79, 157, 216, 44,
        42, 249, 130, 219, 130, 231, 141, 123, 107, 229, 13])]

/-- Two data sets that differ in one value have different hash roots. -/
theorem dataSet_binding_single :
    hashProto (knownDigests singleEntryDigests) (encodeUnsignedDataSet (singleEntry 1)) ≠
      hashProto (knownDigests singleEntryDigests) (encodeUnsignedDataSet (singleEntry 2)) :=
  (dataSet_binding (knownDigests singleEntryDigests) (length_knownDigests _) (singleEntry 1)
    (singleEntry 2)).2.2 (by decide +kernel) (by decide +kernel) ⟨"a", by decide +kernel⟩

end DvSpec.Encoding
