import DvSpec.Library.Json
import DvSpec.Library.Splitting

/-!
# Compact JSON text

A writer of JSON without blanks and a reader for it.  Strings are escaped where JSON asks
for it; numbers are integers.
-/

namespace DvSpec.Library.Json

/-! ## Writing -/

/-- A character between the quotes of a string. -/
def escape (char : Char) : List Char :=
  if char = '"' ∨ char = '\\' then ['\\', char]
  else if char = '\n' then ['\\', 'n']
  else if char = '\r' then ['\\', 'r']
  else if char = '\t' then ['\\', 't']
  else if char.toNat < 32 then
    ['\\', 'u', '0', '0', Nat.digitChar (char.toNat / 16), Nat.digitChar (char.toNat % 16)]
  else [char]

def writeString (text : String) : List Char := '"' :: (text.toList.flatMap escape ++ ['"'])

def writeInt (value : Int) : List Char :=
  if value < 0 then '-' :: Nat.toDigits 10 value.natAbs else Nat.toDigits 10 value.natAbs

mutual

/-- The text of a document. -/
def write : Json → List Char
  | null => ['n', 'u', 'l', 'l']
  | bool true => ['t', 'r', 'u', 'e']
  | bool false => ['f', 'a', 'l', 's', 'e']
  | num value => writeInt value
  | str text => writeString text
  | arr [] => ['[', ']']
  | arr (item :: items) => '[' :: (write item ++ writeItems items)
  | obj [] => ['{', '}']
  | obj ((key, value) :: entries) =>
      '{' :: (writeString key ++ ':' :: (write value ++ writeEntries entries))

/-- The items of an array after the first one, and its bracket. -/
def writeItems : List Json → List Char
  | [] => [']']
  | item :: items => ',' :: (write item ++ writeItems items)

/-- The entries of an object after the first one, and its brace. -/
def writeEntries : List (String × Json) → List Char
  | [] => ['}']
  | (key, value) :: entries =>
      ',' :: (writeString key ++ ':' :: (write value ++ writeEntries entries))

end

/-! ## Reading -/

/-- The value of a hex digit. -/
def hexValue (char : Char) : Option Nat :=
  (List.range 16).find? fun digit => Nat.digitChar digit = char.toLower

/-- The character behind a backslash, other than a code point. -/
def unescape (char : Char) : Option Char :=
  if char = '"' ∨ char = '\\' ∨ char = '/' then some char
  else if char = 'n' then some '\n'
  else if char = 'r' then some '\r'
  else if char = 't' then some '\t'
  else if char = 'b' then some '\x08'
  else if char = 'f' then some '\x0c'
  else none

/-- The characters up to the closing quote. -/
def readChars : List Char → Option (List Char × List Char)
  | [] => none
  | '"' :: rest => some ([], rest)
  | '\\' :: 'u' :: first :: second :: third :: fourth :: rest => do
      let code := 16 * (16 * (16 * (← hexValue first) + (← hexValue second)) + (← hexValue third)) +
        (← hexValue fourth)
      let (chars, left) ← readChars rest
      if 0xd800 ≤ code ∧ code < 0xe000 then none else some (Char.ofNat code :: chars, left)
  | '\\' :: char :: rest => do
      let plain ← unescape char
      let (chars, left) ← readChars rest
      some (plain :: chars, left)
  | char :: rest => do
      let (chars, left) ← readChars rest
      if char.toNat < 32 then none else some (char :: chars, left)

/-- A string, with its quotes. -/
def readString : List Char → Option (String × List Char)
  | '"' :: rest => (readChars rest).map fun read => (String.ofList read.1, read.2)
  | _ => none

/-- A natural number. -/
def readNat (text : List Char) : Option (Nat × List Char) :=
  let digits := text.takeWhile Char.isDigit
  if digits = [] then none
  else some (Nat.ofDigitChars 10 digits 0, text.dropWhile Char.isDigit)

mutual

/-- A document at the beginning of a text, with the text behind it. -/
def read : Nat → List Char → Option (Json × List Char)
  | 0, _ => none
  | _ + 1, 'n' :: 'u' :: 'l' :: 'l' :: rest => some (null, rest)
  | _ + 1, 't' :: 'r' :: 'u' :: 'e' :: rest => some (bool true, rest)
  | _ + 1, 'f' :: 'a' :: 'l' :: 's' :: 'e' :: rest => some (bool false, rest)
  | _ + 1, '"' :: rest => (readString ('"' :: rest)).map fun read => (str read.1, read.2)
  | _ + 1, '[' :: ']' :: rest => some (arr [], rest)
  | fuel + 1, '[' :: rest => do
      let (item, left) ← read fuel rest
      let (items, left) ← readItems fuel left
      some (arr (item :: items), left)
  | _ + 1, '{' :: '}' :: rest => some (obj [], rest)
  | fuel + 1, '{' :: rest => do
      let (entry, left) ← readEntry fuel rest
      let (entries, left) ← readEntries fuel left
      some (obj (entry :: entries), left)
  | _ + 1, '-' :: rest => (readNat rest).map fun read => (num (-read.1), read.2)
  | _ + 1, text => (readNat text).map fun read => (num read.1, read.2)

/-- The items of an array after the first one, and its bracket. -/
def readItems : Nat → List Char → Option (List Json × List Char)
  | _ + 1, ']' :: rest => some ([], rest)
  | fuel + 1, ',' :: rest => do
      let (item, left) ← read fuel rest
      let (items, left) ← readItems fuel left
      some (item :: items, left)
  | _, _ => none

/-- An entry of an object. -/
def readEntry : Nat → List Char → Option ((String × Json) × List Char)
  | fuel + 1, text => do
      let (key, left) ← readString text
      match left with
      | ':' :: left => do
          let (value, left) ← read fuel left
          some ((key, value), left)
      | _ => none
  | _, _ => none

/-- The entries of an object after the first one, and its brace. -/
def readEntries : Nat → List Char → Option (List (String × Json) × List Char)
  | _ + 1, '}' :: rest => some ([], rest)
  | fuel + 1, ',' :: rest => do
      let (entry, left) ← readEntry fuel rest
      let (entries, left) ← readEntries fuel left
      some (entry :: entries, left)
  | _, _ => none

end

/-! ## Strings -/

theorem hexValue_digitChar : ∀ digit < 16, hexValue (Nat.digitChar digit) = some digit := by
  decide

theorem readChars_plain {char : Char} (quote : char ≠ '"') (backslash : char ≠ '\\')
    (visible : ¬ char.toNat < 32) (text : List Char) :
    readChars (char :: text) = (readChars text).map fun read => (char :: read.1, read.2) := by
  rw [readChars]
  · cases readChars text with
    | none => rfl
    | some read => exact if_neg visible
  · exact quote
  · intro first second third fourth rest same
    exact absurd same backslash
  · intro next rest same
    exact absurd same backslash

/-- A control character is written by its code point. -/
theorem readChars_code {char : Char} (control : char.toNat < 32) (text : List Char) :
    readChars ('\\' :: 'u' :: '0' :: '0' :: Nat.digitChar (char.toNat / 16) ::
      Nat.digitChar (char.toNat % 16) :: text) =
      (readChars text).map fun read => (char :: read.1, read.2) := by
  have first : hexValue '0' = some 0 := hexValue_digitChar 0 (by decide)
  have high := hexValue_digitChar (char.toNat / 16) (by omega)
  have low := hexValue_digitChar (char.toNat % 16) (by omega)
  have code : 16 * (16 * (16 * 0 + 0) + char.toNat / 16) + char.toNat % 16 = char.toNat := by omega
  rw [readChars]
  simp only [first, high, low, Option.bind_eq_bind, Option.bind_some, code]
  cases readChars text with
  | none => rfl
  | some read =>
      have scalar : ¬ (0xd800 ≤ char.toNat ∧ char.toNat < 0xe000) := by omega
      simp only [Option.bind_some, if_neg scalar, Char.ofNat_toNat, Option.map_some]

/-- A character that has a letter of its own. -/
theorem readChars_letter {letter char : Char} (plain : unescape letter = some char)
    (letter_ne : letter ≠ 'u') (text : List Char) :
    readChars ('\\' :: letter :: text) =
      (readChars text).map fun read => (char :: read.1, read.2) := by
  rw [readChars]
  · rw [plain]
    cases readChars text with
    | none => rfl
    | some read => rfl
  · intro first second third fourth rest same
    exact absurd same letter_ne

theorem readChars_escape (char : Char) (text : List Char) :
    readChars (escape char ++ text) =
      (readChars text).map fun read => (char :: read.1, read.2) := by
  unfold escape
  split
  · rename_i special
    rcases special with rfl | rfl
    · exact readChars_letter rfl (by decide) text
    · exact readChars_letter rfl (by decide) text
  · rename_i ordinary
    obtain ⟨quote, backslash⟩ := not_or.mp ordinary
    split
    · rename_i same
      subst same
      exact readChars_letter rfl (by decide) text
    · split
      · rename_i same
        subst same
        exact readChars_letter rfl (by decide) text
      · split
        · rename_i same
          subst same
          exact readChars_letter rfl (by decide) text
        · split
          · rename_i control
            exact readChars_code control text
          · rename_i visible
            exact readChars_plain quote backslash visible text

theorem readString_writeString (text : String) (rest : List Char) :
    readString (writeString text ++ rest) = some (text, rest) := by
  have chars : ∀ chars : List Char, readChars (chars.flatMap escape ++ '"' :: rest) =
      some (chars, rest) := by
    intro chars
    induction chars with
    | nil => rfl
    | cons char chars ih =>
        rw [List.flatMap_cons, List.append_assoc, readChars_escape, ih]
        rfl
  rw [writeString, List.cons_append, List.append_assoc, List.singleton_append, readString, chars,
    Option.map_some, String.ofList_toList]

/-! ## Numbers -/

/-- Text behind a value, which does not go on with digits. -/
def Stops (rest : List Char) : Prop := ∀ char ∈ rest.head?, char.isDigit = false

theorem readNat_toDigits (value : Nat) {rest : List Char} (stops : Stops rest) :
    readNat (Nat.toDigits 10 value ++ rest) = some (value, rest) := by
  have digits : ∀ char ∈ Nat.toDigits 10 value, char.isDigit = true := fun char member =>
    Nat.isDigit_of_mem_toDigits (by decide) (by decide) member
  unfold readNat
  simp only [takeWhile_append_eq digits stops, dropWhile_append_eq digits stops]
  rw [if_neg Nat.toDigits_ne_nil, Nat.ofDigitChars_ten_toDigits]

/-! ## Documents -/

/-- A value that begins with a digit is a number. -/
theorem read_digits (fuel : Nat) {char : Char} (digit : char.isDigit = true) (rest : List Char) :
    read (fuel + 1) (char :: rest) =
      (readNat (char :: rest)).map fun read => (num read.1, read.2) := by
  rw [read]
  all_goals
    intro left same
    rw [(List.cons.inj same).1] at digit
    cases digit

theorem read_bracket (fuel : Nat) (rest : List Char) : read fuel (']' :: rest) = none := by
  cases fuel <;> rfl

/-- Reading a document's text gives the document back, whatever stands behind it. -/
def ReadsBack (document : Json) : Prop :=
  ∀ fuel rest, (write document).length ≤ fuel → Stops rest →
    read fuel (write document ++ rest) = some (document, rest)

theorem stops_writeItems (items : List Json) (rest : List Char) :
    Stops (writeItems items ++ rest) := by
  cases items <;> simp [Stops, writeItems]

theorem stops_writeEntries (entries : List (String × Json)) (rest : List Char) :
    Stops (writeEntries entries ++ rest) := by
  cases entries <;> simp [Stops, writeEntries]

theorem readsBack_num (value : Int) : ReadsBack (num value) := by
  intro fuel rest enough stops
  obtain ⟨digit, digits, split⟩ := List.exists_cons_of_ne_nil (@Nat.toDigits_ne_nil value.natAbs 10)
  have numeral := readNat_toDigits value.natAbs stops
  have isDigit : digit.isDigit = true :=
    Nat.isDigit_of_mem_toDigits (by decide) (by decide) (split ▸ List.mem_cons_self)
  obtain ⟨fuel, rfl⟩ : ∃ less, fuel = less + 1 := by
    refine Nat.exists_eq_add_one.mpr (Nat.lt_of_lt_of_le ?_ enough)
    rw [write, writeInt]
    split <;> simp [split]
  rw [write, writeInt]
  split
  · rw [List.cons_append, read, numeral, Option.map_some]
    congr 3
    omega
  · rw [split, List.cons_append] at numeral ⊢
    rw [read_digits fuel isDigit, numeral, Option.map_some]
    congr 3
    omega

/-- Fuel for the text behind the first character. -/
theorem exists_fuel {length fuel : Nat} (enough : length + 1 ≤ fuel) :
    ∃ less, fuel = less + 1 ∧ length ≤ less :=
  ⟨fuel - 1, by omega, by omega⟩

theorem readItems_writeItems {items : List Json} (each : ∀ item ∈ items, ReadsBack item)
    (fuel : Nat) (rest : List Char) (enough : (writeItems items).length ≤ fuel) :
    readItems fuel (writeItems items ++ rest) = some (items, rest) := by
  induction items generalizing fuel with
  | nil =>
      obtain ⟨fuel, rfl, -⟩ := exists_fuel enough
      rfl
  | cons item items ih =>
      obtain ⟨here, later⟩ := List.forall_mem_cons.mp each
      obtain ⟨fuel, rfl, behind⟩ := exists_fuel enough
      rw [List.length_append] at behind
      rw [writeItems, List.cons_append, List.append_assoc, readItems,
        here fuel _ (by omega) (stops_writeItems items rest)]
      simp only [Option.bind_eq_bind, Option.bind_some]
      rw [ih later fuel (by omega)]
      rfl

theorem readEntry_write {key : String} {value : Json} (reads : ReadsBack value) (fuel : Nat)
    {rest : List Char} (enough : (write value).length + 1 ≤ fuel) (stops : Stops rest) :
    readEntry fuel (writeString key ++ ':' :: (write value ++ rest)) =
      some ((key, value), rest) := by
  obtain ⟨fuel, rfl, behind⟩ := exists_fuel enough
  rw [readEntry, readString_writeString]
  simp only [Option.bind_eq_bind, Option.bind_some]
  rw [reads fuel rest behind stops]
  rfl

theorem readEntries_writeEntries {entries : List (String × Json)}
    (each : ∀ entry ∈ entries, ReadsBack entry.2) (fuel : Nat) (rest : List Char)
    (enough : (writeEntries entries).length ≤ fuel) :
    readEntries fuel (writeEntries entries ++ rest) = some (entries, rest) := by
  induction entries generalizing fuel with
  | nil =>
      obtain ⟨fuel, rfl, -⟩ := exists_fuel enough
      rfl
  | cons entry entries ih =>
      obtain ⟨key, value⟩ := entry
      obtain ⟨reads, later⟩ := List.forall_mem_cons.mp each
      have here : ReadsBack value := reads
      obtain ⟨fuel, rfl, behind⟩ := exists_fuel enough
      simp only [List.length_cons, List.length_append] at behind
      simp only [writeEntries, List.cons_append, List.append_assoc]
      rw [readEntries, readEntry_write here fuel (by omega) (stops_writeEntries entries rest)]
      simp only [Option.bind_eq_bind, Option.bind_some]
      rw [ih later fuel (by omega)]
      rfl

theorem readsBack_bool (value : Bool) : ReadsBack (bool value) := by
  intro fuel rest enough stops
  cases value
  · obtain ⟨fuel, rfl, -⟩ := exists_fuel enough
    rfl
  · obtain ⟨fuel, rfl, -⟩ := exists_fuel enough
    rfl

theorem readsBack_str (text : String) : ReadsBack (str text) := by
  intro fuel rest enough stops
  obtain ⟨fuel, rfl, -⟩ := exists_fuel enough
  have string := readString_writeString text rest
  rw [writeString, List.cons_append] at string
  rw [write, writeString, List.cons_append, read, string]
  rfl

theorem readsBack_arr {items : List Json} (each : ∀ item ∈ items, ReadsBack item) :
    ReadsBack (arr items) := by
  intro fuel rest enough stops
  cases items with
  | nil =>
      obtain ⟨fuel, rfl, -⟩ := exists_fuel enough
      rfl
  | cons item items =>
      obtain ⟨here, later⟩ := List.forall_mem_cons.mp each
      obtain ⟨fuel, rfl, behind⟩ := exists_fuel enough
      rw [List.length_append] at behind
      have first := here fuel (writeItems items ++ rest) (by omega) (stops_writeItems items rest)
      have others := readItems_writeItems later fuel rest (by omega)
      rw [write, List.cons_append, List.append_assoc, read]
      · simp only [first, others, Option.bind_eq_bind, Option.bind_some]
      · -- no item begins with the closing bracket
        intro left bracket
        rw [bracket, read_bracket] at first
        cases first

theorem readsBack_obj {entries : List (String × Json)}
    (each : ∀ entry ∈ entries, ReadsBack entry.2) : ReadsBack (obj entries) := by
  intro fuel rest enough stops
  cases entries with
  | nil =>
      obtain ⟨fuel, rfl, -⟩ := exists_fuel enough
      rfl
  | cons entry entries =>
      obtain ⟨key, value⟩ := entry
      obtain ⟨reads, later⟩ := List.forall_mem_cons.mp each
      have here : ReadsBack value := reads
      obtain ⟨fuel, rfl, behind⟩ := exists_fuel enough
      simp only [List.length_cons, List.length_append] at behind
      have first := @readEntry_write key value here fuel _ (by omega)
        (stops_writeEntries entries rest)
      have others := readEntries_writeEntries later fuel rest (by omega)
      simp only [write, List.cons_append, List.append_assoc]
      rw [read]
      · simp only [first, others, Option.bind_eq_bind, Option.bind_some]
      · intro left brace
        cases brace

theorem readsBack (document : Json) : ReadsBack document := by
  induction document using Json.induction with
  | null =>
      intro fuel rest enough stops
      obtain ⟨fuel, rfl, -⟩ := exists_fuel enough
      rfl
  | bool value => exact readsBack_bool value
  | num value => exact readsBack_num value
  | str text => exact readsBack_str text
  | arr items each => exact readsBack_arr each
  | obj entries each => exact readsBack_obj each

/-! ## The library -/

/-- A document that takes up the whole text. -/
def readDocument (text : List Char) : Option Json :=
  match read text.length text with
  | some (document, []) => some document
  | _ => none

theorem readDocument_write (document : Json) : readDocument (write document) = some document := by
  have whole := readsBack document (write document).length [] (Nat.le_refl _) (by simp [Stops])
  rw [List.append_nil] at whole
  rw [readDocument, whole]

/-- The writer and the reader of compact text. -/
def compactLibrary : JsonLibrary where
  dumps document := String.ofList (write document)
  loads text := readDocument text.toList
  loads_dumps document _ := by rw [String.toList_ofList, readDocument_write]

end DvSpec.Library.Json
