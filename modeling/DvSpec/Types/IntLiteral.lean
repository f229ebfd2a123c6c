import DvSpec.Library.Splitting
import DvSpec.Types.Hex
import Mathlib.Data.Nat.Digits.Defs

/-!
# Integer literals

`int(text)` for decimal text: digits of any script, single underscores between them, a
sign in front and blanks around.  The interpreter refuses to convert more digits than a
limit that can be set, where zero stands for none.
-/

namespace DvSpec

open DvSpec.Library

/-! ## Characters -/

/-- The code points of the decimal digits zero. -/
def decimalZeros : List Nat :=
  [0x30, 0x660, 0x6f0, 0x7c0, 0x966, 0x9e6, 0xa66, 0xae6, 0xb66, 0xbe6, 0xc66, 0xce6, 0xd66,
    0xde6, 0xe50, 0xed0, 0xf20, 0x1040, 0x1090, 0x17e0, 0x1810, 0x1946, 0x19d0, 0x1a80, 0x1a90,
    0x1b50, 0x1bb0, 0x1c40, 0x1c50, 0xa620, 0xa8d0, 0xa900, 0xa9d0, 0xa9f0, 0xaa50, 0xabf0,
    0xff10, 0x104a0, 0x10d30, 0x11066, 0x110f0, 0x11136, 0x111d0, 0x112f0, 0x11450, 0x114d0,
    0x11650, 0x116c0, 0x11730, 0x118e0, 0x11950, 0x11c50, 0x11d50, 0x11da0, 0x11f50, 0x16a60,
    0x16ac0, 0x16b50, 0x1d7ce, 0x1d7d8, 0x1d7e2, 0x1d7ec, 0x1d7f6, 0x1e140, 0x1e2f0, 0x1e4f0,
    0x1e950, 0x1fbf0]

/-- The value of a decimal digit of any script. -/
def decimal (char : Char) : Option Nat :=
  (decimalZeros.find? fun first => first ≤ char.toNat ∧ char.toNat < first + 10).map (char.toNat - ·)

/-- A character as the number parser sees it: beyond ASCII, spaces are blanks and decimal
digits are ASCII digits. -/
def transformDecimalAndSpace (char : Char) : Char :=
  if char.toNat < 127 then char
  else if isSpace char then ' '
  else match decimal char with
    | some digit => Nat.digitChar digit
    | none => '?'

/-- The blanks of ASCII. -/
def isBlank (char : Char) : Bool := char.toNat ∈ [9, 10, 11, 12, 13, 32]

def digitValue (char : Char) : Nat := char.toNat - '0'.toNat

/-! ## The parser -/

/-- The digits of a literal and what follows them.  An underscore stands between digits. -/
def scanDigits (afterDigit : Bool) : List Char → Option (List Nat × List Char)
  | [] => if afterDigit then some ([], []) else none
  | char :: rest =>
      if char.isDigit then
        (scanDigits true rest).map fun scanned => (digitValue char :: scanned.1, scanned.2)
      else if char = '_' then (if afterDigit then scanDigits false rest else none)
      else if afterDigit then some ([], char :: rest) else none

/-- An optional sign and what follows it. -/
def splitSign : List Char → Int × List Char
  | '+' :: rest => (1, rest)
  | '-' :: rest => (-1, rest)
  | text => (1, text)

/-- Whether a number of digits may be converted. -/
def WithinLimit (limit digits : Nat) : Prop := limit = 0 ∨ digits ≤ limit

instance (limit digits : Nat) : Decidable (WithinLimit limit digits) :=
  inferInstanceAs (Decidable (_ ∨ _))

/-- The number of a list of digits, the highest first. -/
def digitsValue (digits : List Nat) : Nat :=
  digits.foldl (fun value digit => 10 * value + digit) 0

/-- `int(text)` -/
def int (limit : Nat) (text : List Char) : Except PyError Int :=
  let shown := String.ofList ((reprStr (String.ofList text)).toList.take 200)
  let signed := splitSign ((text.map transformDecimalAndSpace).dropWhile isBlank)
  match scanDigits false signed.2 with
  | none => .error (.valueError s!"invalid literal for int() with base 10: {shown}")
  | some (digits, rest) =>
      let count := digits.length
      if ¬ WithinLimit limit count then
        .error (.valueError
          (s!"Exceeds the limit ({limit} digits) for integer string conversion: value has {count} " ++
            "digits; use sys.set_int_max_str_digits() to increase the limit"))
      else if rest.all isBlank then
        .ok (signed.1 * digitsValue digits)
      else .error (.valueError s!"invalid literal for int() with base 10: {shown}")

/-- Whatever `int` cannot read raises a value error. -/
theorem int_raises {limit : Nat} {text : List Char} {raised : PyError}
    (refused : int limit text = .error raised) : IsValueError raised := by
  unfold int at refused
  dsimp only at refused
  split at refused
  · cases refused
    exact ⟨_, rfl⟩
  · split at refused
    · cases refused
      exact ⟨_, rfl⟩
    · split at refused
      · cases refused
      · cases refused
        exact ⟨_, rfl⟩

/-! ## Plain digits -/

/-- A run of decimal digits. -/
def DigitRun (text : List Char) : Prop := text ≠ [] ∧ ∀ char ∈ text, char.isDigit = true

instance (text : List Char) : Decidable (DigitRun text) := inferInstanceAs (Decidable (_ ∧ _))

/-- The number a run of digits stands for. -/
def runValue (text : List Char) : Nat := Nat.ofDigits 10 (text.reverse.map digitValue)

theorem toNat_of_isDigit {char : Char} (digit : char.isDigit = true) :
    48 ≤ char.toNat ∧ char.toNat ≤ 57 := by
  simpa [Char.isDigit, UInt32.le_iff_toNat_le] using digit

theorem transform_of_isDigit {char : Char} (digit : char.isDigit = true) :
    transformDecimalAndSpace char = char := by
  have between := toNat_of_isDigit digit
  rw [transformDecimalAndSpace, if_pos (by omega)]

theorem isBlank_of_isDigit {char : Char} (digit : char.isDigit = true) : isBlank char = false := by
  have between := toNat_of_isDigit digit
  simp only [isBlank, List.mem_cons, List.not_mem_nil, or_false, decide_eq_false_iff_not]
  omega

theorem splitSign_of_isDigit {char : Char} (digit : char.isDigit = true) (rest : List Char) :
    splitSign (char :: rest) = (1, char :: rest) := by
  unfold splitSign
  split
  · rename_i equal
    rw [(List.cons.inj equal).1] at digit
    cases digit
  · rename_i equal
    rw [(List.cons.inj equal).1] at digit
    cases digit
  · rfl

/-- The scan goes through a run of digits. -/
theorem scanDigits_append {digits tail : List Char}
    (all : ∀ char ∈ digits, char.isDigit = true) :
    scanDigits true (digits ++ tail) =
      (scanDigits true tail).map fun scanned => (digits.map digitValue ++ scanned.1, scanned.2) := by
  induction digits with
  | nil => simp
  | cons char rest ih =>
      obtain ⟨here, later⟩ := List.forall_mem_cons.mp all
      rw [List.cons_append, scanDigits, if_pos here, ih later, Option.map_map]
      rfl

theorem scanDigits_run {run : List Char} (digits : DigitRun run) (afterDigit : Bool)
    (tail : List Char) :
    scanDigits afterDigit (run ++ tail) =
      (scanDigits true tail).map fun scanned => (run.map digitValue ++ scanned.1, scanned.2) := by
  obtain ⟨nonempty, all⟩ := digits
  obtain ⟨char, rest, rfl⟩ := List.exists_cons_of_ne_nil nonempty
  obtain ⟨here, later⟩ := List.forall_mem_cons.mp all
  rw [List.cons_append, scanDigits, if_pos here, scanDigits_append later, Option.map_map]
  rfl

theorem digitsValue_eq_ofDigits (digits : List Nat) :
    digitsValue digits = Nat.ofDigits 10 digits.reverse := by
  rw [digitsValue, Nat.ofDigits_eq_foldr, List.foldr_reverse]
  congr 1
  funext value digit
  exact Nat.add_comm _ _

theorem digitRun_toDigits (value : Nat) : DigitRun (Nat.toDigits 10 value) :=
  ⟨Nat.toDigits_ne_nil, fun _ member => Nat.isDigit_of_mem_toDigits (by decide) (by decide) member⟩

theorem runValue_toDigits (value : Nat) : runValue (Nat.toDigits 10 value) = value := by
  rw [runValue, List.map_reverse, ← digitsValue_eq_ofDigits, digitsValue, List.foldl_map]
  exact Nat.ofDigitChars_ten_toDigits

/-- The parser in front of a run of digits. -/
theorem int_digitRun {text : List Char} (run : DigitRun text) (limit : Nat) :
    (WithinLimit limit text.length → int limit text = .ok (runValue text)) ∧
      (¬ WithinLimit limit text.length → ∃ message, int limit text = .error (.valueError message)) := by
  obtain ⟨nonempty, digits⟩ := run
  obtain ⟨char, rest, rfl⟩ := List.exists_cons_of_ne_nil nonempty
  have here := digits char List.mem_cons_self
  have plain : (char :: rest).map transformDecimalAndSpace = char :: rest := by
    rw [List.map_congr_left fun char member => transform_of_isDigit (digits char member), List.map_id']
  have front : (char :: rest).dropWhile isBlank = char :: rest := by
    rw [List.dropWhile_cons_of_neg]
    rw [isBlank_of_isDigit here]
    exact Bool.false_ne_true
  have scanned : scanDigits false (char :: rest) = some ((char :: rest).map digitValue, []) := by
    simpa [scanDigits] using scanDigits_run ⟨nonempty, digits⟩ false []
  unfold int
  simp only [plain, front, splitSign_of_isDigit here, scanned, List.length_map]
  constructor
  · intro within
    rw [if_neg (not_not_intro within), digitsValue_eq_ofDigits, ← List.map_reverse, Int.one_mul]
    rfl
  · intro beyond
    rw [if_pos beyond]
    exact ⟨_, rfl⟩

/-! ## The texts that are read -/

/-- The parts of a text that `int` reads: blanks, an optional sign, runs of digits with
underscores between them, and blanks. -/
structure Literal where
  front : List Char
  sign : List Char
  runs : List (List Char)
  back : List Char
  blank : ∀ char ∈ front ++ back, isBlank char = true
  signed : sign = [] ∨ sign = ['+'] ∨ sign = ['-']
  nonempty : runs ≠ []
  digits : ∀ run ∈ runs, DigitRun run

namespace Literal

/-- The digits with the underscores between them. -/
def number (literal : Literal) : List Char := List.intercalate ['_'] literal.runs

def text (literal : Literal) : List Char :=
  literal.front ++ (literal.sign ++ (literal.number ++ literal.back))

/-- The number of digits, without the underscores. -/
def count (literal : Literal) : Nat := literal.runs.flatten.length

end Literal

/-- What is scanned is a run of digits, complete unless a digit precedes it, and further runs
behind underscores. -/
theorem scanDigits_sound {afterDigit : Bool} {text rest : List Char} {digits : List Nat}
    (scanned : scanDigits afterDigit text = some (digits, rest)) :
    ∃ first more, List.intercalate ['_'] (first :: more) ++ rest = text ∧
      (afterDigit = false → first ≠ []) ∧ (∀ char ∈ first, char.isDigit = true) ∧
      (∀ run ∈ more, DigitRun run) ∧ digits.length = (first :: more).flatten.length := by
  induction text generalizing afterDigit digits with
  | nil =>
      cases afterDigit with
      | false => cases scanned
      | true =>
          cases scanned
          exact ⟨[], [], rfl, by simp, by simp, by simp, rfl⟩
  | cons char tail ih =>
      rw [scanDigits] at scanned
      split at scanned
      · rename_i digit
        obtain ⟨⟨later, _⟩, found, same⟩ := Option.map_eq_some_iff.mp scanned
        cases same
        obtain ⟨first, more, rfl, -, all, runs, length⟩ := ih found
        refine ⟨char :: first, more, ?_, by simp, List.forall_mem_cons.mpr ⟨digit, all⟩, runs, ?_⟩
        · cases more <;> simp [List.intercalate_cons_cons]
        · simpa using length
      · split at scanned
        · rename_i underscore
          subst underscore
          split at scanned
          · rename_i after
            obtain ⟨first, more, rfl, complete, all, runs, length⟩ := ih scanned
            refine ⟨[], first :: more, ?_, by simp [after], by simp,
              List.forall_mem_cons.mpr ⟨⟨complete rfl, all⟩, runs⟩, length⟩
            simp [List.intercalate_cons_cons]
          · cases scanned
        · split at scanned
          · rename_i after
            cases scanned
            exact ⟨[], [], rfl, by simp [after], by simp, by simp, rfl⟩
          · cases scanned

/-- Runs of digits with underscores between them are scanned as far as something else follows. -/
theorem scanDigits_intercalate {runs : List (List Char)} {rest : List Char} (nonempty : runs ≠ [])
    (digits : ∀ run ∈ runs, DigitRun run)
    (stops : ∀ char ∈ rest.head?, char.isDigit = false ∧ char ≠ '_') :
    scanDigits false (List.intercalate ['_'] runs ++ rest) =
      some (runs.flatten.map digitValue, rest) := by
  induction runs with
  | nil => exact absurd rfl nonempty
  | cons run more ih =>
      obtain ⟨here, others⟩ := List.forall_mem_cons.mp digits
      cases more with
      | nil =>
          have stopped : scanDigits true rest = some ([], rest) := by
            cases rest with
            | nil => rfl
            | cons char tail =>
                obtain ⟨noDigit, noUnderscore⟩ := stops char rfl
                simp [scanDigits, noDigit, noUnderscore]
          rw [List.intercalate_singleton, scanDigits_run here, stopped]
          simp
      | cons second later =>
          have underscore : scanDigits true
              ('_' :: (List.intercalate ['_'] (second :: later) ++ rest)) =
              some ((second :: later).flatten.map digitValue, rest) :=
            ih (List.cons_ne_nil _ _) others
          rw [List.intercalate_cons_cons, List.append_assoc, List.append_assoc, scanDigits_run here,
            List.singleton_append, underscore]
          simp

theorem splitSign_sound (text : List Char) :
    ∃ sign, (sign = [] ∨ sign = ['+'] ∨ sign = ['-']) ∧ sign ++ (splitSign text).2 = text := by
  unfold splitSign
  split
  · exact ⟨['+'], Or.inr (Or.inl rfl), rfl⟩
  · exact ⟨['-'], Or.inr (Or.inr rfl), rfl⟩
  · exact ⟨[], Or.inl rfl, rfl⟩

namespace Literal

variable (literal : Literal)

/-- The number starts with a digit. -/
theorem exists_number_eq_cons :
    ∃ char tail, literal.number = char :: tail ∧ char.isDigit = true := by
  obtain ⟨run, more, equal⟩ := List.exists_cons_of_ne_nil literal.nonempty
  obtain ⟨nonempty, all⟩ := literal.digits run (equal ▸ List.mem_cons_self)
  obtain ⟨char, rest, rfl⟩ := List.exists_cons_of_ne_nil nonempty
  unfold number
  rw [equal]
  cases more with
  | nil => exact ⟨char, rest, List.intercalate_singleton, all char List.mem_cons_self⟩
  | cons => exact ⟨char, _, List.intercalate_cons_cons .., all char List.mem_cons_self⟩

/-- Behind the blanks in front, the parser finds the number and the blanks at the end. -/
theorem splitSign_text :
    (splitSign (literal.text.dropWhile isBlank)).2 = literal.number ++ literal.back := by
  obtain ⟨char, tail, equal, digit⟩ := literal.exists_number_eq_cons
  have front : literal.text.dropWhile isBlank =
      literal.sign ++ (literal.number ++ literal.back) := by
    refine dropWhile_append_eq (fun char member => ?_) fun other head => ?_
    · exact literal.blank char (List.mem_append_left _ member)
    · rw [equal] at head
      rcases literal.signed with sign | sign | sign <;> rw [sign] at head <;> cases head
      · exact isBlank_of_isDigit digit
      · rfl
      · rfl
  rw [front, equal]
  rcases literal.signed with sign | sign | sign <;> rw [sign]
  · rw [List.nil_append, List.cons_append, splitSign_of_isDigit digit]
  · rfl
  · rfl

theorem scanDigits_text :
    scanDigits false (splitSign (literal.text.dropWhile isBlank)).2 =
      some (literal.runs.flatten.map digitValue, literal.back) := by
  rw [literal.splitSign_text]
  refine scanDigits_intercalate literal.nonempty literal.digits fun char head => ?_
  have blank := literal.blank char
    (List.mem_append_right _ (List.mem_of_mem_head? head))
  refine ⟨Bool.eq_false_of_not_eq_true fun digit => ?_, ?_⟩
  · rw [isBlank_of_isDigit digit] at blank
    cases blank
  · rintro rfl
    cases blank

end Literal

/-- What `int` reads is a literal. -/
theorem exists_literal_of_int {limit : Nat} {text : List Char} {value : Int}
    (read : int limit text = .ok value) :
    ∃ literal : Literal, literal.text = text.map transformDecimalAndSpace ∧
      WithinLimit limit literal.count := by
  unfold int at read
  dsimp only at read
  split at read
  · cases read
  · rename_i digits rest scanned
    split at read
    · cases read
    · rename_i within
      split at read
      · rename_i blank
        obtain ⟨first, more, number, complete, all, runs, count⟩ := scanDigits_sound scanned
        obtain ⟨sign, signed, split⟩ :=
          splitSign_sound ((text.map transformDecimalAndSpace).dropWhile isBlank)
        refine ⟨⟨(text.map transformDecimalAndSpace).takeWhile isBlank, sign, first :: more, rest,
          ?_, signed, List.cons_ne_nil _ _, List.forall_mem_cons.mpr ⟨⟨complete rfl, all⟩, runs⟩⟩,
          ?_, ?_⟩
        · intro char member
          rcases List.mem_append.mp member with front | back
          · exact List.all_eq_true.mp List.all_takeWhile char front
          · exact List.all_eq_true.mp blank char back
        · unfold Literal.text Literal.number
          dsimp only
          rw [number, split, List.takeWhile_append_dropWhile]
        · unfold Literal.count
          dsimp only
          rw [← count]
          exact not_not.mp within
      · cases read

/-- A literal with no more digits than `int` converts is read. -/
theorem Literal.int_returns {limit : Nat} {text : List Char} (literal : Literal)
    (equal : literal.text = text.map transformDecimalAndSpace)
    (within : WithinLimit limit literal.count) : ∃ value, int limit text = .ok value := by
  have blank : literal.back.all isBlank = true :=
    List.all_eq_true.mpr fun char member => literal.blank char (List.mem_append_right _ member)
  have short : WithinLimit limit (literal.runs.flatten.map digitValue).length := by
    rw [List.length_map]
    exact within
  unfold int
  rw [← equal]
  simp only [literal.scanDigits_text, if_neg (not_not_intro short), if_pos blank]
  exact ⟨_, rfl⟩

theorem int_returns_iff {limit : Nat} {text : List Char} :
    (∃ value, int limit text = .ok value) ↔
      ∃ literal : Literal, literal.text = text.map transformDecimalAndSpace ∧
        WithinLimit limit literal.count :=
  ⟨fun ⟨_, read⟩ => exists_literal_of_int read,
    fun ⟨literal, equal, within⟩ => literal.int_returns equal within⟩

end DvSpec
