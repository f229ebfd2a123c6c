import Mathlib.Data.List.Basic
import Mathlib.Logic.Function.Iterate

/-!
# Anchored regular expressions

Sequences and fixed repetitions of character sets between the anchors `^` and `$`.  A
match starts at the beginning of the text and need not reach its end: only `$` looks at
what is left, and it also matches in front of a final newline.
-/

namespace DvSpec.Library

inductive Regex where
  /-- `^` -/
  | start
  /-- `$` -/
  | finish
  /-- `[...]` -/
  | oneOf (chars : Char → Bool)
  | seq (first second : Regex)
  /-- `body{count}` -/
  | times (count : Nat) (body : Regex)

namespace Regex

/-- Where a match that begins at a position may end, each time with the text that is left. -/
def ends : Regex → Nat × List Char → List (Nat × List Char)
  | start, here => if here.1 = 0 then [here] else []
  | finish, here => if here.2 = [] ∨ here.2 = ['\n'] then [here] else []
  | oneOf _, (_, []) => []
  | oneOf chars, (position, char :: rest) => if chars char then [(position + 1, rest)] else []
  | seq first second, here => (first.ends here).flatMap second.ends
  | times count body, here => (fun reached => reached.flatMap body.ends)^[count] [here]

/-- Whether the expression matches at the beginning of the text. -/
def match? (regex : Regex) (text : List Char) : Bool := !(regex.ends (0, text)).isEmpty

theorem match?_eq_true_iff {regex : Regex} {text : List Char} :
    regex.match? text = true ↔ ∃ final, final ∈ regex.ends (0, text) := by
  rw [match?, Bool.not_eq_true', ← Bool.not_eq_true, List.isEmpty_iff]
  constructor
  · exact List.exists_mem_of_ne_nil _
  · rintro ⟨final, member⟩
    exact List.ne_nil_of_mem member

@[simp]
theorem mem_ends_start {here final : Nat × List Char} :
    final ∈ start.ends here ↔ here.1 = 0 ∧ final = here := by
  rw [ends]
  split <;> simp_all

@[simp]
theorem mem_ends_finish {here final : Nat × List Char} :
    final ∈ finish.ends here ↔ (here.2 = [] ∨ here.2 = ['\n']) ∧ final = here := by
  rw [ends]
  split <;> simp_all

@[simp]
theorem mem_ends_seq {first second : Regex} {here final : Nat × List Char} :
    final ∈ (seq first second).ends here ↔
      ∃ middle ∈ first.ends here, final ∈ second.ends middle := by
  rw [ends, List.mem_flatMap]

theorem mem_ends_oneOf {chars : Char → Bool} {here final : Nat × List Char} :
    final ∈ (oneOf chars).ends here ↔
      ∃ char, chars char = true ∧ here.2 = char :: final.2 ∧ final.1 = here.1 + 1 := by
  obtain ⟨position, text⟩ := here
  obtain ⟨reached, left⟩ := final
  cases text with
  | nil => simp [ends]
  | cons char rest =>
      by_cases fits : chars char = true
      · rw [ends, if_pos fits, List.mem_singleton]
        constructor
        · intro equal
          obtain ⟨rfl, rfl⟩ := Prod.mk.inj equal
          exact ⟨char, fits, rfl, rfl⟩
        · rintro ⟨other, -, text, position⟩
          obtain ⟨-, rest⟩ := List.cons.inj text
          exact Prod.ext position rest.symm
      · rw [ends, if_neg fits]
        constructor
        · intro member
          cases member
        · rintro ⟨other, allowed, text, -⟩
          obtain ⟨same, -⟩ := List.cons.inj text
          exact absurd (same ▸ allowed) fits

/-- Counted characters of a set, one after the other. -/
@[simp]
theorem mem_ends_times_oneOf {chars : Char → Bool} {count : Nat} {here final : Nat × List Char} :
    final ∈ (times count (oneOf chars)).ends here ↔
      ∃ read : List Char, read.length = count ∧ (∀ char ∈ read, chars char = true) ∧
        here.2 = read ++ final.2 ∧ final.1 = here.1 + count := by
  rw [ends]
  induction count generalizing final with
  | zero =>
      rw [Function.iterate_zero, id_eq, List.mem_singleton]
      constructor
      · rintro rfl
        exact ⟨[], rfl, by simp, rfl, rfl⟩
      · rintro ⟨read, none, -, same, position⟩
        rw [List.eq_nil_of_length_eq_zero none] at same
        exact Prod.ext position same.symm
  | succ count ih =>
      rw [Function.iterate_succ_apply', List.mem_flatMap]
      constructor
      · rintro ⟨middle, among, here_to⟩
        obtain ⟨read, length, allowed, text, position⟩ := ih.mp among
        obtain ⟨char, fits, next, last⟩ := mem_ends_oneOf.mp here_to
        refine ⟨read ++ [char], by simp [length], ?_, ?_, by omega⟩
        · exact List.forall_mem_append.mpr ⟨allowed, by simpa using fits⟩
        · rw [text, next, List.append_assoc, List.singleton_append]
      · rintro ⟨read, length, allowed, text, position⟩
        obtain ⟨front, char, rfl⟩ := List.eq_nil_or_concat' read |>.resolve_left fun none => by
          rw [none] at length
          cases length
        obtain ⟨before, fits⟩ := List.forall_mem_append.mp allowed
        have fewer : front.length = count := by simpa using length
        refine ⟨(here.1 + count, char :: final.2), ih.mpr ⟨front, fewer, before, ?_, rfl⟩, ?_⟩
        · rw [text, List.append_assoc, List.singleton_append]
        · exact mem_ends_oneOf.mpr ⟨char, fits char List.mem_cons_self, rfl, position⟩

end Regex

end DvSpec.Library
