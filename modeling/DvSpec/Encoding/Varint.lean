import DvSpec.Encoding.Parsing
import Mathlib.Data.Nat.Digits.Defs

/-!
# Varints

A varint is the shortest run of seven-bit groups for a number, the lowest group first,
in which every byte but the last is marked.  Negative integers are taken as 64-bit two's
complement, so ten bytes are enough for every signed or unsigned 64-bit integer.
-/

namespace DvSpec.Encoding

open DvSpec.Library

/-! ## The loop -/

/-- The loop of `varint` as it is written, over a whole number: `none` when it has not
returned after the given number of passes. -/
def varintPasses : Nat → Int → Option Bytes
  | 0, _ => none
  | passes + 1, value =>
      let byte := (value % 128).toNat
      let value := value / 128
      if value ≠ 0 then (varintPasses passes value).map (UInt8.ofNat (byte + 128) :: ·)
      else some [UInt8.ofNat byte]

/-- A loop that may run often enough returns what `varintLoop` computes. -/
theorem varintPasses_eq_some {passes value : Nat} (enough : value < 128 ^ (passes + 1)) :
    varintPasses (passes + 1) value = some (varintLoop value) := by
  induction passes generalizing value with
  | zero =>
      have last : value / 128 = 0 := by omega
      have quotient : (value : Int) / 128 = 0 := by omega
      have byte : ((value : Int) % 128).toNat = value % 128 := by omega
      rw [varintLoop_last last, varintPasses]
      simp only [quotient, byte, ne_eq, not_true_eq_false, if_false]
  | succ passes ih =>
      have byte : ((value : Int) % 128).toNat = value % 128 := by omega
      have quotient : (value : Int) / 128 = (value / 128 : Nat) := by omega
      rw [varintPasses]
      simp only [quotient, byte]
      by_cases last : value / 128 = 0
      · rw [varintLoop_last last, if_neg (by omega)]
      · have smaller : value / 128 < 128 ^ (passes + 1) := by
          rw [Nat.pow_succ] at enough
          omega
        rw [varintLoop_more last, if_pos (by omega), ih smaller]
        rfl

/-! ## What the bytes say -/

/-- The groups of seven bits as one number, the lowest group first. -/
def groupsValue (bytes : Bytes) : Nat :=
  Nat.ofDigits 128 (bytes.map fun byte => byte.toNat % 128)

theorem groupsValue_cons (byte : UInt8) (rest : Bytes) :
    groupsValue (byte :: rest) = byte.toNat % 128 + 128 * groupsValue rest := by
  rw [groupsValue, List.map_cons, Nat.ofDigits_cons]
  rfl

theorem groupsValue_varintLoop (value : Nat) : groupsValue (varintLoop value) = value := by
  induction value using varintLoop.induct with
  | case1 value last =>
      rw [varintLoop_last last, groupsValue_cons, toNat_low]
      simp only [groupsValue, List.map_nil, Nat.ofDigits_nil]
      omega
  | case2 value more ih =>
      rw [varintLoop_more more, groupsValue_cons, toNat_high, ih]
      omega

theorem varintLoop_ne_nil (value : Nat) : varintLoop value ≠ [] := by
  rw [varintLoop]
  split <;> exact List.cons_ne_nil _ _

/-- Every byte but the last is marked, and the last is not. -/
theorem varintLoop_marked (value : Nat) :
    ∃ marked last, varintLoop value = marked ++ [last] ∧ (∀ byte ∈ marked, 128 ≤ byte.toNat) ∧
      last.toNat < 128 ∧ (value ≠ 0 → last.toNat ≠ 0) := by
  induction value using varintLoop.induct with
  | case1 value last =>
      refine ⟨[], _, varintLoop_last last, by simp, ?_, fun positive => ?_⟩
      · rw [toNat_low]
        omega
      · rw [toNat_low]
        omega
  | case2 value more ih =>
      obtain ⟨marked, last, equal, high, low, positive⟩ := ih
      refine ⟨UInt8.ofNat (value % 128 + 128) :: marked, last, ?_, ?_, low, fun _ => positive more⟩
      · rw [varintLoop_more more, equal]
        rfl
      · refine List.forall_mem_cons.mpr ⟨?_, high⟩
        rw [toNat_high]
        exact Nat.le_add_left 128 _

/-! ## Two's complement -/

/-- The integers a varint carries: signed and unsigned 64-bit ones. -/
def FitsVarint (value : Int) : Prop := -2 ^ 63 ≤ value ∧ value < 2 ^ 64

/-- The 64-bit word of an integer. -/
def word (value : Int) : Nat := (value % 2 ^ 64).toNat

theorem word_lt (value : Int) : word value < 2 ^ 64 := by
  unfold word
  omega

/-- Ten groups of seven bits hold a word. -/
theorem word_lt_groups (value : Int) : word value < 128 ^ (9 + 1) :=
  Nat.lt_trans (word_lt value) (by decide)

theorem natCast_word (value : Int) : (word value : Int) = value % 2 ^ 64 := by
  unfold word
  omega

theorem word_ne_zero {value : Int} (fits : FitsVarint value) (nonzero : value ≠ 0) :
    word value ≠ 0 := by
  obtain ⟨low, high⟩ := fits
  unfold word
  omega

/-- What the loop starts from is the word of the integer. -/
theorem adjusted_eq_word {value : Int} (fits : FitsVarint value) :
    (if value < 0 then value + 2 ^ 64 else value) = (word value : Int) := by
  obtain ⟨low, high⟩ := fits
  unfold word
  split <;> omega

theorem varint_eq_varintLoop {value : Int} (fits : FitsVarint value) :
    varint value = varintLoop (word value) := by
  rw [varint, adjusted_eq_word fits, Int.toNat_natCast]

/-! ## Minimal and self-delimiting -/

/-- The shortest marked form of an integer. -/
structure MinimalVarint (value : Int) (bytes : Bytes) : Prop where
  /-- The loop returns the bytes in its tenth pass at the latest. -/
  returned : varintPasses 10 (if value < 0 then value + 2 ^ 64 else value) = some bytes
  bounded : 1 ≤ bytes.length ∧ bytes.length ≤ 10
  marked : ∃ marked last, bytes = marked ++ [last] ∧ (∀ byte ∈ marked, 128 ≤ byte.toNat) ∧
    last.toNat < 128 ∧ (value ≠ 0 → last.toNat ≠ 0)
  groups : (groupsValue bytes : Int) = value % 2 ^ 64

theorem minimalVarint_varint {value : Int} (fits : FitsVarint value) :
    MinimalVarint value (varint value) where
  returned := by
    rw [adjusted_eq_word fits, varint_eq_varintLoop fits]
    exact varintPasses_eq_some (word_lt_groups value)
  bounded := by
    rw [varint_eq_varintLoop fits]
    exact ⟨List.length_pos_iff.mpr (varintLoop_ne_nil _),
      length_varintLoop_le (word_lt_groups value)⟩
  marked := by
    obtain ⟨marked, last, equal, high, low, positive⟩ := varintLoop_marked (word value)
    refine ⟨marked, last, ?_, high, low, fun nonzero => positive (word_ne_zero fits nonzero)⟩
    rw [varint_eq_varintLoop fits, equal]
  groups := by
    rw [varint_eq_varintLoop fits, groupsValue_varintLoop, natCast_word]

/-- Every 64-bit integer has a minimal varint, and no varint starts another one unless
both stand for the same word. -/
theorem varint_minimal_selfDelimiting {value other : Int} (fits : FitsVarint value)
    (otherFits : FitsVarint other) :
    MinimalVarint value (varint value) ∧
      (varint value <+: varint other → value % 2 ^ 64 = other % 2 ^ 64) := by
  refine ⟨minimalVarint_varint fits, ?_⟩
  rintro ⟨rest, equal⟩
  rw [varint_eq_varintLoop fits, varint_eq_varintLoop otherFits,
    ← List.append_nil (varintLoop (word other))] at equal
  have same : word value = word other := (prefixCode_varintLoop _ _ _ _ equal).1
  rw [← natCast_word, ← natCast_word, same]

/-- A negative integer takes ten bytes, and 300 is no part of it. -/
theorem varint_minimal_selfDelimiting_negative :
    MinimalVarint (-1) (varint (-1)) ∧
      (varint (-1) <+: varint 300 → (-1 : Int) % 2 ^ 64 = 300 % 2 ^ 64) :=
  varint_minimal_selfDelimiting ⟨by decide, by decide⟩ ⟨by decide, by decide⟩

end DvSpec.Encoding
