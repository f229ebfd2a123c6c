import DvSpec.Library.Dict
import DvSpec.Types.Duty
import Mathlib.Algebra.Ring.Int.Defs
import Mathlib.Data.List.Sort
import Mathlib.Data.String.Basic

/-!
# Deterministic protobuf encoding

The wire primitives used by the consensus messages: base-128 varints, tags, and
fields that are omitted when zero or emitted unconditionally.  A map is encoded in
the order of its keys.
-/

namespace DvSpec.Encoding

open DvSpec.Library

def wireTypeVarint : Nat := 0

def wireTypeLengthDelimited : Nat := 2

/-- The byte loop of `varint` on a non-negative value. -/
def varintLoop (value : Nat) : Bytes :=
  let byte := value % 128
  if value / 128 = 0 then [UInt8.ofNat byte]
  else UInt8.ofNat (byte + 128) :: varintLoop (value / 128)
termination_by value
decreasing_by omega

/-- Encode an integer as a base-128 varint; negative values are sign-extended to
64 bits first. -/
def varint (value : Int) : Bytes :=
  varintLoop (if value < 0 then value + 2 ^ 64 else value).toNat

/-- Encode a field's key: its number shifted left by three, plus its type. -/
def tag (fieldNumber wireType : Nat) : Bytes :=
  varint ((fieldNumber <<< 3) ||| wireType : Nat)

/-- Encode a singular varint field, omitting it when zero. -/
def varintField (fieldNumber : Nat) (value : Int) : Bytes :=
  if value = 0 then [] else tag fieldNumber wireTypeVarint ++ varint value

/-- Encode a length-delimited field unconditionally, even when empty. -/
def lengthDelimited (fieldNumber : Nat) (payload : Bytes) : Bytes :=
  tag fieldNumber wireTypeLengthDelimited ++ varint payload.length ++ payload

/-- Encode a singular bytes field, omitting it when empty. -/
def bytesField (fieldNumber : Nat) (value : Bytes) : Bytes :=
  if value = [] then [] else lengthDelimited fieldNumber value

/-- Encode a `Duty`; a zero slot and a zero type leave no bytes. -/
def encodeDuty (duty : Duty) : Bytes :=
  varintField 1 duty.slot ++ varintField 2 duty.type.toNat

/-- `str.encode()`: the UTF-8 bytes of a string. -/
def utf8 (text : String) : Bytes := text.toUTF8.data.toList

theorem utf8_injective : Function.Injective utf8 := by
  intro one two equal
  apply String.toByteArray_inj.mp
  exact ByteArray.ext (Array.toList_inj.mp equal)

/-- One entry of an `UnsignedDataSet`, as an embedded message. -/
def encodeDataSetEntry (entry : String × Bytes) : Bytes :=
  lengthDelimited 1 (lengthDelimited 1 (utf8 entry.1) ++ lengthDelimited 2 entry.2)

/-- The entries in ascending order of their keys. -/
def sortedEntries (entries : Dict String Bytes) : List (String × Bytes) :=
  (entries.keys.insertionSort (· ≤ ·)).map fun key => (key, (entries.get? key).getD [])

/-- Encode an `UnsignedDataSet`, a map from strings to bytes sorted by key. -/
def encodeUnsignedDataSet (entries : Dict String Bytes) : Bytes :=
  (sortedEntries entries).flatMap encodeDataSetEntry

/-! ## Strings as arbitrary values -/

/-- Type URL of the wrapper strings travel in. -/
def stringValueTypeUrl : String := "type.googleapis.com/google.protobuf.Value"

/-- Encode a singular string field, omitting it when empty. -/
def stringField (fieldNumber : Nat) (value : String) : Bytes := bytesField fieldNumber (utf8 value)

/-- Encode an `Any` wrapping an already-encoded message. -/
def encodeAny (typeUrl : String) (value : Bytes) : Bytes :=
  stringField 1 typeUrl ++ bytesField 2 value

/-- Encode a `Value` holding a string; an empty one is still emitted. -/
def encodeStringValue (value : String) : Bytes := lengthDelimited 3 (utf8 value)

/-- Encode an `Any`-wrapped `Value` holding a string. -/
def encodeAnyString (value : String) : Bytes :=
  encodeAny stringValueTypeUrl (encodeStringValue value)

end DvSpec.Encoding
