import Mathlib.Data.List.Basic

/-!
# Taking texts apart

Splitting a list at its first separator or at every one, and stripping a run of items off
its front, are undone by putting the parts together again.
-/

namespace DvSpec.Library

variable {α : Type}

/-! ## Runs at the front -/

section Runs

variable {p : α → Bool} {front rest : List α}

theorem takeWhile_append_eq (all : ∀ item ∈ front, p item = true)
    (stops : ∀ item ∈ rest.head?, p item = false) : (front ++ rest).takeWhile p = front := by
  rw [List.takeWhile_append_of_pos all]
  cases rest with
  | nil => rw [List.takeWhile_nil, List.append_nil]
  | cons item rest =>
      have unfit : ¬ p item = true := by simp [stops item rfl]
      rw [List.takeWhile_cons_of_neg unfit, List.append_nil]

theorem dropWhile_append_eq (all : ∀ item ∈ front, p item = true)
    (stops : ∀ item ∈ rest.head?, p item = false) : (front ++ rest).dropWhile p = rest := by
  rw [List.dropWhile_append_of_pos all]
  cases rest with
  | nil => rfl
  | cons item rest =>
      have unfit : ¬ p item = true := by simp [stops item rfl]
      rw [List.dropWhile_cons_of_neg unfit]

end Runs

/-! ## Joined parts -/

theorem mem_intercalate {separator : α} {parts : List (List α)} {item : α}
    (member : item ∈ List.intercalate [separator] parts) :
    item = separator ∨ ∃ part ∈ parts, item ∈ part := by
  induction parts with
  | nil => cases member
  | cons part rest ih =>
      cases rest with
      | nil =>
          rw [List.intercalate_singleton] at member
          exact Or.inr ⟨part, List.mem_cons_self, member⟩
      | cons second others =>
          rw [List.intercalate_cons_cons, List.append_assoc, List.mem_append, List.mem_append,
            List.mem_singleton] at member
          rcases member with here | between | later
          · exact Or.inr ⟨part, List.mem_cons_self, here⟩
          · exact Or.inl between
          · obtain same | ⟨other, among, inside⟩ := ih later
            · exact Or.inl same
            · exact Or.inr ⟨other, List.mem_cons_of_mem _ among, inside⟩

variable [DecidableEq α] {separator : α}

/-! ## The first separator -/

/-- `text.split(separator, 1)` -/
def splitOnce (separator : α) (text : List α) : List (List α) :=
  match text.dropWhile fun item => item ≠ separator with
  | [] => [text]
  | _ :: rest => [text.takeWhile fun item => item ≠ separator, rest]

theorem splitOnce_of_notMem {text : List α} (absent : separator ∉ text) :
    splitOnce separator text = [text] := by
  have all : ∀ item ∈ text, decide (item ≠ separator) = true := fun item member =>
    decide_eq_true fun same => absent (same ▸ member)
  have none : (text.dropWhile fun item => decide (item ≠ separator)) = [] := by
    rw [← List.append_nil text, dropWhile_append_eq all (by simp)]
  rw [splitOnce, none]

theorem splitOnce_append {front rest : List α} (absent : separator ∉ front) :
    splitOnce separator (front ++ separator :: rest) = [front, rest] := by
  have all : ∀ item ∈ front, decide (item ≠ separator) = true := fun item member =>
    decide_eq_true fun same => absent (same ▸ member)
  have stops : ∀ item ∈ (separator :: rest).head?, decide (item ≠ separator) = false := by simp
  rw [splitOnce, dropWhile_append_eq all stops, takeWhile_append_eq all stops]

/-! ## All separators -/

theorem mem_of_mem_splitOn {text part : List α} (among : part ∈ text.splitOn separator) :
    ∀ item ∈ part, item ∈ text ∧ item ≠ separator := by
  induction text generalizing part with
  | nil =>
      have none : part = [] := by simpa using among
      simp [none]
  | cons first rest ih =>
      rw [List.splitOn_cons_eq_if_modifyHead] at among
      split at among
      · rcases List.mem_cons.mp among with rfl | later
        · simp
        · exact fun item member => (ih later item member).imp_left (List.mem_cons_of_mem _)
      · rename_i different
        obtain ⟨head, tail, split⟩ := List.exists_cons_of_ne_nil (List.splitOn_ne_nil separator rest)
        rw [split, List.modifyHead_cons] at among
        rcases List.mem_cons.mp among with rfl | later
        · refine List.forall_mem_cons.mpr ⟨⟨List.mem_cons_self, by simpa using different⟩, ?_⟩
          intro item member
          exact (ih (split ▸ List.mem_cons_self) item member).imp_left (List.mem_cons_of_mem _)
        · intro item member
          exact (ih (split ▸ List.mem_cons_of_mem _ later) item member).imp_left
            (List.mem_cons_of_mem _)

end DvSpec.Library
