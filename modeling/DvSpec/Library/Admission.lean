import Mathlib.Data.List.Induction

/-!
# Admission of strictly increasing numbers

A number is admitted when it exceeds everything admitted before and the log has
room.  The last entry and the length of the log are enough to decide this.
-/

namespace DvSpec.Library.Admission

/-- The number exceeds every logged one, and fewer than `limit` are logged. -/
def Admissible (limit : Nat) (log : List Nat) (number : Nat) : Prop :=
  (∀ earlier ∈ log, earlier < number) ∧ log.length < limit

/-- A log of admitted numbers. -/
structure Admitted (limit : Nat) (log : List Nat) : Prop where
  increasing : log.Pairwise (· < ·)
  within : log.length ≤ limit

/-- What has to be remembered of a log: its last entry and its length. -/
def summary (log : List Nat) : Nat × Nat := (log.getLast?.getD 0, log.length)

theorem summary_concat (log : List Nat) (number : Nat) :
    summary (log ++ [number]) = (number, (summary log).2 + 1) := by
  simp [summary]

theorem admitted_nil (limit : Nat) : Admitted limit [] :=
  ⟨List.Pairwise.nil, Nat.zero_le limit⟩

theorem Admitted.concat {limit : Nat} {log : List Nat} {number : Nat}
    (admitted : Admitted limit log) (admissible : Admissible limit log number) :
    Admitted limit (log ++ [number]) := by
  constructor
  · rw [List.pairwise_append]
    refine ⟨admitted.increasing, List.pairwise_singleton _ _, ?_⟩
    intro earlier member last same
    rw [List.mem_singleton.mp same]
    exact admissible.1 earlier member
  · rw [List.length_append, List.length_singleton]
    exact admissible.2

/-- The last entry of an increasing log is its largest. -/
theorem le_summary {log : List Nat} (increasing : log.Pairwise (· < ·)) :
    ∀ earlier ∈ log, earlier ≤ (summary log).1 := by
  induction log using List.reverseRecOn with
  | nil => simp
  | append_singleton log last _ =>
      intro earlier member
      rw [summary_concat]
      rcases List.mem_append.mp member with before | here
      · have below := (List.pairwise_append.mp increasing).2.2 earlier before last
          List.mem_cons_self
        exact Nat.le_of_lt below
      · exact Nat.le_of_eq (List.mem_singleton.mp here)

theorem summary_mem {log : List Nat} (some_logged : log ≠ []) : (summary log).1 ∈ log := by
  rw [summary, List.getLast?_eq_some_getLast some_logged]
  exact List.getLast_mem some_logged

/-- The summary decides whether a positive number is admissible. -/
theorem admissible_iff_summary {limit number : Nat} {log : List Nat}
    (admitted : Admitted limit log) (positive : 1 ≤ number) :
    Admissible limit log number ↔
      (summary log).1 < number ∧ (summary log).2 < limit := by
  constructor
  · rintro ⟨above, room⟩
    refine ⟨?_, room⟩
    by_cases empty : log = []
    · rw [empty]
      exact positive
    · exact above _ (summary_mem empty)
  · rintro ⟨above, room⟩
    exact ⟨fun earlier member =>
      Nat.lt_of_le_of_lt (le_summary admitted.increasing earlier member) above, room⟩

end DvSpec.Library.Admission
