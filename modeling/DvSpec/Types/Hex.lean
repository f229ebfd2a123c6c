import DvSpec.Library.Raising
import DvSpec.Types.Duty

/-!
# Byte strings as hex strings

Byte fields of cluster files are hex strings with an optional prefix.  Whitespace
is rejected, although the decoder of the language would skip it.
-/

namespace DvSpec

open DvSpec.Library.Raising

/-! ## Strings in messages -/

/-- The first and last code points of the characters beyond ASCII that are not printable: controls,
format characters, spaces and separators, private use and noncharacters. -/
def unprintables : List (Nat × Nat) :=
  [(0x7f, 0xa0), (0xad, 0xad), (0x600, 0x605), (0x61c, 0x61c), (0x6dd, 0x6dd), (0x70f, 0x70f),
    (0x890, 0x891), (0x8e2, 0x8e2), (0x1680, 0x1680), (0x180e, 0x180e), (0x2000, 0x200f),
    (0x2028, 0x202f), (0x205f, 0x206f), (0x3000, 0x3000), (0xe000, 0xf8ff), (0xfdd0, 0xfdef),
    (0xfeff, 0xfeff), (0xfff9, 0xfffb), (0x110bd, 0x110bd), (0x110cd, 0x110cd),
    (0x13430, 0x1343f), (0x1bca0, 0x1bca3), (0x1d173, 0x1d17a), (0xe0001, 0xe0001),
    (0xe0020, 0xe007f), (0xf0000, 0x10ffff)]

/-- `str.isprintable()` of one character.  Which of the other code points are assigned depends on
the interpreter; all are taken as assigned. -/
def isPrintable (char : Char) : Bool :=
  32 ≤ char.toNat ∧ char.toNat % 0x10000 < 0xfffe ∧
    ∀ range ∈ unprintables, char.toNat < range.1 ∨ range.2 < char.toNat

/-- A code point in lower-case hex digits. -/
def hexDigits (width code : Nat) : List Char :=
  let digits := Nat.toDigits 16 code
  List.replicate (width - digits.length) '0' ++ digits

/-- The escape of a character inside the quotes of `repr`. -/
def reprChar (quote char : Char) : List Char :=
  if char = quote ∨ char = '\\' then ['\\', char]
  else if char = '\t' then ['\\', 't']
  else if char = '\n' then ['\\', 'n']
  else if char = '\r' then ['\\', 'r']
  else if isPrintable char then [char]
  else if char.toNat < 0x100 then '\\' :: 'x' :: hexDigits 2 char.toNat
  else if char.toNat < 0x10000 then '\\' :: 'u' :: hexDigits 4 char.toNat
  else '\\' :: 'U' :: hexDigits 8 char.toNat

/-- `repr(text)` -/
def reprStr (text : String) : String :=
  let single := Char.ofNat 39
  let quote := if single ∈ text.toList ∧ '"' ∉ text.toList then '"' else single
  String.ofList (quote :: text.toList.flatMap (reprChar quote) ++ [quote])

/-! ## Decoding -/

/-- `str.isspace()` of one character. -/
def isSpace (char : Char) : Bool :=
  char.toNat ∈ [9, 10, 11, 12, 13, 28, 29, 30, 31, 32, 0x85, 0xa0, 0x1680, 0x2000, 0x2001, 0x2002,
    0x2003, 0x2004, 0x2005, 0x2006, 0x2007, 0x2008, 0x2009, 0x200a, 0x2028, 0x2029, 0x202f, 0x205f,
    0x3000]

/-- The value of a hex digit of either case. -/
def hexDigit (char : Char) : Option Nat :=
  if '0' ≤ char ∧ char ≤ '9' then some (char.toNat - '0'.toNat)
  else if 'a' ≤ char ∧ char ≤ 'f' then some (char.toNat - 'a'.toNat + 10)
  else if 'A' ≤ char ∧ char ≤ 'F' then some (char.toNat - 'A'.toNat + 10)
  else none

/-- The error of `bytes.fromhex` at a position. -/
def nonHex (position : Nat) : PyError :=
  .valueError s!"non-hexadecimal number found in fromhex() arg at position {position}"

/-- The loop of `bytes.fromhex` over text without whitespace, two digits at a time. -/
def fromHexFrom (position : Nat) : List Char → Except PyError Bytes
  | [] => .ok []
  | [last] => .error (nonHex (if hexDigit last = none then position else position + 1))
  | high :: low :: rest =>
      match hexDigit high, hexDigit low with
      | none, _ => .error (nonHex position)
      | some _, none => .error (nonHex (position + 1))
      | some upper, some lower => do
          let bytes ← fromHexFrom (position + 2) rest
          .ok (UInt8.ofNat (16 * upper + lower) :: bytes)

/-- `bytes.fromhex(text)` for text without whitespace. -/
def fromHex (text : List Char) : Except PyError Bytes :=
  match text.findIdx? fun char => 128 ≤ char.toNat with
  | some position => .error (nonHex position)
  | none => fromHexFrom 0 text

/-- `value.removeprefix("0x")`. -/
def removeHexPrefix : List Char → List Char
  | '0' :: 'x' :: rest => rest
  | text => text

/-- Decode a hex string to bytes. -/
def decodeHexBytes (value : String) : Except PyError Bytes :=
  let text := removeHexPrefix value.toList
  if text.any isSpace then
    let shown := reprStr value
    .error (.valueError s!"invalid hex string: whitespace in {shown}")
  else match fromHex text with
    | .error (.valueError reason) => .error (.valueError s!"invalid hex string: {reason}")
    | other => other

/-! ## What is decoded -/

def IsValueError (raised : PyError) : Prop := ∃ message, raised = .valueError message

/-- Text of hex digits, two for every byte. -/
def HexText (text : List Char) : Prop :=
  text.length % 2 = 0 ∧ ∀ char ∈ text, hexDigit char ≠ none

/-- The bytes of hex text. -/
def hexBytes : List Char → Bytes
  | high :: low :: rest =>
      UInt8.ofNat (16 * (hexDigit high).getD 0 + (hexDigit low).getD 0) :: hexBytes rest
  | _ => []

theorem length_hexBytes : ∀ text : List Char, (hexBytes text).length = text.length / 2
  | [] => rfl
  | [_] => by simp [hexBytes]
  | _ :: _ :: rest => by
      rw [hexBytes, List.length_cons, length_hexBytes rest, List.length_cons, List.length_cons]
      omega

theorem hexText_cons_cons {high low : Char} {rest : List Char} :
    HexText (high :: low :: rest) ↔
      hexDigit high ≠ none ∧ hexDigit low ≠ none ∧ HexText rest := by
  simp only [HexText, List.length_cons, List.forall_mem_cons]
  have parity : (rest.length + 1 + 1) % 2 = rest.length % 2 := by omega
  rw [parity]
  tauto

theorem fromHexFrom_yields : ∀ (position : Nat) (text : List Char),
    Yields IsValueError (fromHexFrom position text) (HexText text) (hexBytes text)
  | _, [] => (Yields.of_ok []).congr (by simp [HexText])
  | position, [last] => by
      refine ⟨fun digits => absurd digits.1 (by simp), fun _ => ⟨_, rfl, _, rfl⟩⟩
  | position, high :: low :: rest => by
      have later := fromHexFrom_yields (position + 2) rest
      rw [fromHexFrom]
      cases upper : hexDigit high with
      | none =>
          refine ⟨fun digits => ?_, fun _ => ⟨_, rfl, _, rfl⟩⟩
          exact absurd upper (hexText_cons_cons.mp digits).1
      | some first =>
          cases lower : hexDigit low with
          | none =>
              refine ⟨fun digits => ?_, fun _ => ⟨_, rfl, _, rfl⟩⟩
              exact absurd lower (hexText_cons_cons.mp digits).2.1
          | some second =>
              have whole : Yields IsValueError
                  (do
                    let bytes ← fromHexFrom (position + 2) rest
                    .ok (UInt8.ofNat (16 * first + second) :: bytes))
                  (HexText rest ∧ True) (UInt8.ofNat (16 * first + second) :: hexBytes rest) :=
                later.bind (Yields.of_ok _)
              rw [hexBytes, upper, lower]
              exact whole.congr (by simp [hexText_cons_cons, upper, lower])

/-- Hex digits are ASCII. -/
theorem toNat_lt_of_hexDigit {char : Char} (digit : hexDigit char ≠ none) : char.toNat < 128 := by
  by_contra large
  apply digit
  have beyond : ∀ last : Char, last.toNat < 128 → ¬ char ≤ last := fun last small within =>
    large (Nat.lt_of_le_of_lt (UInt32.le_iff_toNat_le.mp within) small)
  simp [hexDigit, beyond '9' (by decide), beyond 'f' (by decide), beyond 'F' (by decide)]

theorem fromHex_yields (text : List Char) :
    Yields IsValueError (fromHex text) (HexText text) (hexBytes text) := by
  unfold fromHex
  cases found : text.findIdx? fun char => 128 ≤ char.toNat with
  | none => exact fromHexFrom_yields 0 text
  | some position =>
      refine ⟨fun digits => ?_, fun _ => ⟨_, rfl, _, rfl⟩⟩
      obtain ⟨inside, beyond, -⟩ := List.findIdx?_eq_some_iff_getElem.mp found
      have ascii := toNat_lt_of_hexDigit (digits.2 _ (List.getElem_mem inside))
      simp only [decide_eq_true_eq] at beyond
      omega

theorem hexDigit_of_isSpace {char : Char} (space : isSpace char = true) : hexDigit char = none := by
  have among : char.toNat ∈ _ := of_decide_eq_true space
  simp only [List.mem_cons, List.not_mem_nil, or_false] at among
  have outside : char.toNat < 48 ∨ 102 < char.toNat := by omega
  -- every hex digit lies between '0' and 'f'
  have between : ∀ first last : Char, 48 ≤ first.toNat → last.toNat ≤ 102 →
      ¬ (first ≤ char ∧ char ≤ last) := by
    rintro first last low high ⟨above, below⟩
    have least : first.toNat ≤ char.toNat := above
    have greatest : char.toNat ≤ last.toNat := below
    omega
  rw [hexDigit, if_neg (between _ _ (by decide) (by decide)),
    if_neg (between _ _ (by decide) (by decide)), if_neg (between _ _ (by decide) (by decide))]

/-- Hex text with or without its prefix is decoded, anything else is refused. -/
theorem decodeHexBytes_yields (value : String) :
    Yields IsValueError (decodeHexBytes value) (HexText (removeHexPrefix value.toList))
      (hexBytes (removeHexPrefix value.toList)) := by
  have decoded := fromHex_yields (removeHexPrefix value.toList)
  unfold decodeHexBytes
  by_cases space : (removeHexPrefix value.toList).any isSpace = true
  · refine ⟨fun digits => ?_, fun _ => ⟨_, if_pos space, _, rfl⟩⟩
    obtain ⟨char, member, white⟩ := List.any_eq_true.mp space
    exact absurd (hexDigit_of_isSpace white) (digits.2 char member)
  · rw [if_neg space]
    constructor
    · intro digits
      rw [decoded.returns digits]
    · intro refused
      obtain ⟨_, equal, reason, rfl⟩ := decoded.raises refused
      rw [equal]
      exact ⟨_, rfl, _, rfl⟩

/-- The strings that are decoded: an even number of hex digits, with or without the prefix. -/
theorem decodeHexBytes_accepts_iff (value : String) :
    (∃ bytes, decodeHexBytes value = .ok bytes) ↔
      ∃ digits, HexText digits ∧ (value.toList = digits ∨ value.toList = '0' :: 'x' :: digits) := by
  have yields := decodeHexBytes_yields value
  constructor
  · rintro ⟨bytes, decoded⟩
    refine ⟨_, (yields.eq_ok_iff.mp decoded).1, ?_⟩
    unfold removeHexPrefix
    split
    · exact Or.inr ‹_›
    · exact Or.inl rfl
  · rintro ⟨digits, hexText, plain | prefixed⟩
    · have kept : removeHexPrefix value.toList = digits := by
        rw [plain]
        unfold removeHexPrefix
        split
        · -- the prefix is no hex text
          have digit := hexText.2 'x' (List.mem_cons_of_mem _ List.mem_cons_self)
          exact absurd (by decide) digit
        · rfl
      exact ⟨_, yields.returns (kept.symm ▸ hexText)⟩
    · have removed : removeHexPrefix value.toList = digits := by rw [prefixed, removeHexPrefix]
      exact ⟨_, yields.returns (removed.symm ▸ hexText)⟩

/-! ## Encoding -/

/-- `value.hex()` -/
def hex (value : Bytes) : List Char :=
  value.flatMap fun byte => [Nat.digitChar (byte.toNat / 16), Nat.digitChar (byte.toNat % 16)]

/-- Encode bytes as a prefixed lower-case hex string; no bytes have no prefix either. -/
def encodeHexBytes (value : Bytes) : String :=
  if value = [] then "" else String.ofList ('0' :: 'x' :: hex value)

theorem hexDigit_digitChar : ∀ digit < 16, hexDigit (Nat.digitChar digit) = some digit := by
  decide

theorem hexText_hex (value : Bytes) : HexText (hex value) := by
  induction value with
  | nil => exact ⟨rfl, by simp [hex]⟩
  | cons byte rest ih =>
      have size := byte.toNat_lt
      refine hexText_cons_cons.mpr ⟨?_, ?_, ih⟩
      · rw [hexDigit_digitChar _ (by omega)]
        exact Option.some_ne_none _
      · rw [hexDigit_digitChar _ (by omega)]
        exact Option.some_ne_none _

theorem hexBytes_hex (value : Bytes) : hexBytes (hex value) = value := by
  induction value with
  | nil => rfl
  | cons byte rest ih =>
      have size := byte.toNat_lt
      have whole : 16 * (byte.toNat / 16) + byte.toNat % 16 = byte.toNat := by omega
      change hexBytes (_ :: _ :: hex rest) = byte :: rest
      rw [hexBytes, hexDigit_digitChar _ (by omega), hexDigit_digitChar _ (by omega), ih]
      simp only [Option.getD_some, whole, UInt8.ofNat_toNat]

/-- Encoded bytes are decoded to themselves. -/
theorem decodeHexBytes_encodeHexBytes (value : Bytes) :
    decodeHexBytes (encodeHexBytes value) = .ok value := by
  unfold encodeHexBytes
  split
  · rename_i none
    rw [none]
    rfl
  · have removed : removeHexPrefix (String.ofList ('0' :: 'x' :: hex value)).toList = hex value := by
      rw [String.toList_ofList, removeHexPrefix]
    have decoded := (decodeHexBytes_yields (String.ofList ('0' :: 'x' :: hex value))).returns
    rw [removed, hexBytes_hex] at decoded
    exact decoded (hexText_hex value)

end DvSpec
