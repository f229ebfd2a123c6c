import Mathlib.Data.List.Basic

/-!
# Prefix codes

A code whose words can be read off the front of a stream without looking further
determines both the word and what follows it.  Concatenations of such words then
determine the sequence of words.
-/

namespace DvSpec.Library

variable {α β σ : Type}

/-- A stream that starts with a code word determines the word and the remainder. -/
def PrefixCode (encode : α → List σ) : Prop :=
  ∀ one two rest other, encode one ++ rest = encode two ++ other → one = two ∧ rest = other

namespace PrefixCode

variable {encode : α → List σ}

theorem injective (code : PrefixCode encode) : Function.Injective encode := by
  intro one two equal
  exact (code one two [] [] (congrArg (· ++ []) equal)).1

/-- Reading a code word through an injective map determines the argument. -/
theorem comp (code : PrefixCode encode) {view : β → α} (faithful : Function.Injective view) :
    PrefixCode fun item => encode (view item) := by
  intro one two rest other equal
  obtain ⟨same, remaining⟩ := code _ _ rest other equal
  exact ⟨faithful same, remaining⟩

/-- Words of two codes, one after the other, form a code for pairs. -/
theorem pair {follow : β → List σ} (code : PrefixCode encode) (next : PrefixCode follow) :
    PrefixCode fun item : α × β => encode item.1 ++ follow item.2 := by
  intro one two rest other equal
  rw [List.append_assoc, List.append_assoc] at equal
  obtain ⟨first, remaining⟩ := code _ _ _ _ equal
  obtain ⟨second, same⟩ := next _ _ _ _ remaining
  exact ⟨Prod.ext first second, same⟩

/-- Two sequences of words, each followed by something that starts with no word, are equal. -/
theorem flatMap (code : PrefixCode encode) {rest other : List σ}
    (endRest : ∀ item tail, rest ≠ encode item ++ tail)
    (endOther : ∀ item tail, other ≠ encode item ++ tail) {items words : List α}
    (equal : items.flatMap encode ++ rest = words.flatMap encode ++ other) :
    items = words ∧ rest = other := by
  induction items generalizing words with
  | nil =>
      cases words with
      | nil => exact ⟨rfl, equal⟩
      | cons word words =>
          rw [List.flatMap_cons, List.append_assoc] at equal
          exact absurd equal (endRest word _)
  | cons item items ih =>
      cases words with
      | nil =>
          rw [List.flatMap_cons, List.append_assoc] at equal
          exact absurd equal.symm (endOther item _)
      | cons word words =>
          rw [List.flatMap_cons, List.flatMap_cons, List.append_assoc, List.append_assoc] at equal
          obtain ⟨rfl, remaining⟩ := code _ _ _ _ equal
          obtain ⟨rfl, same⟩ := ih remaining
          exact ⟨rfl, same⟩

end PrefixCode

end DvSpec.Library
