import DvSpec.Library.Codec
import DvSpec.Types.IntLiteral

/-!
# Lax coercions

How a field of a number or a truth value takes documents of another kind.  Strings come
from strings alone.  A number may be written as a string of digits with an optional sign,
and a truth value as a number or a word.
-/

namespace DvSpec

open DvSpec.Library

/-- The digits a number in a string may have. -/
def maxStringDigits : Nat := 4300

/-- The number a string stands for. -/
def integerOfText (text : String) : Except String Int :=
  let signed := splitSign text.toList
  if ¬ DigitRun signed.2 then
    .error "Input should be a valid integer, unable to parse string as an integer"
  else if maxStringDigits < signed.2.length then
    .error "Unable to parse input string as an integer, exceeded maximum size"
  else .ok (signed.1 * runValue signed.2)

def laxInteger : Json → Except String Int
  | .num value => .ok value
  | .bool value => .ok value.toNat
  | .str text => integerOfText text
  | _ => .error "Input should be a valid integer"

def laxText : Json → Except String String
  | .str text => .ok text
  | _ => .error "Input should be a valid string"

/-- The words for false. -/
def falseWords : List String := ["0", "off", "f", "false", "n", "no"]

/-- The words for true. -/
def trueWords : List String := ["1", "on", "t", "true", "y", "yes"]

/-- The truth value of a word, of either case. -/
def booleanOfText (text : String) : Except String Bool :=
  let word := String.ofList (text.toList.map Char.toLower)
  if word ∈ falseWords then .ok false
  else if word ∈ trueWords then .ok true
  else .error "Input should be a valid boolean, unable to interpret input"

def laxBoolean : Json → Except String Bool
  | .bool value => .ok value
  | .num 0 => .ok false
  | .num 1 => .ok true
  | .num _ => .error "Input should be a valid boolean, unable to interpret input"
  | .str text => booleanOfText text
  | _ => .error "Input should be a valid boolean"

/-! ## Written amounts -/

/-- A decimal string of a number that is not too large has few digits. -/
theorem length_toDigits_le {value : Nat} (small : value < 2 ^ 64) :
    (Nat.toDigits 10 value).length ≤ maxStringDigits := by
  have twenty : (Nat.toDigits 10 value).length ≤ 20 :=
    (Nat.length_toDigits_le_iff (by decide) (by decide)).mpr (Nat.lt_trans small (by decide))
  exact Nat.le_trans twenty (by decide)

theorem splitSign_toDigits (value : Nat) :
    splitSign (Nat.toDigits 10 value) = (1, Nat.toDigits 10 value) := by
  obtain ⟨nonempty, digits⟩ := digitRun_toDigits value
  obtain ⟨char, rest, split⟩ := List.exists_cons_of_ne_nil nonempty
  rw [split] at digits ⊢
  exact splitSign_of_isDigit (digits char List.mem_cons_self) rest

theorem integerOfText_toString {value : Nat} (small : value < 2 ^ 64) :
    integerOfText (toString value) = .ok (value : Int) := by
  have few := length_toDigits_le small
  unfold integerOfText
  simp only [Nat.toString_eq_ofList_toDigits, String.toList_ofList, splitSign_toDigits]
  rw [if_neg (not_not_intro (digitRun_toDigits value)), if_neg (Nat.not_lt.mpr few),
    runValue_toDigits, Int.one_mul]

/-- The coercions of fields that are not declared strict. -/
def laxCoercions : Coercions where
  text := laxText
  integer := laxInteger
  boolean := laxBoolean
  text_str _ := rfl
  integer_num _ := rfl
  integer_decimal _ small := integerOfText_toString small
  boolean_bool _ := rfl

end DvSpec
