import DvSpec.Library.Machine
import Mathlib.Logic.Function.Basic

/-!
# Agreement on one value

What a consensus protocol is for: every participant decides at most once, on a value
that was proposed, and no two participants decide on different values.
-/

namespace DvSpec.Library.Decree

variable {ι ν : Type} [DecidableEq ι] {proposed : ν → Prop}

/-- An undecided participant decides on a proposed value that no decision contradicts. -/
inductive Decides (proposed : ν → Prop) (decisions : ι → Option ν) : (ι → Option ν) → Prop where
  | decide {who : ι} {value : ν} (undecided : decisions who = none) (known : proposed value)
      (agrees : ∀ other made, decisions other = some made → made = value) :
      Decides proposed decisions (Function.update decisions who (some value))

/-- Any two decisions are equal. -/
def Consistent (decisions : ι → Option ν) : Prop :=
  ∀ one two first second, decisions one = some first → decisions two = some second →
    first = second

theorem Decides.kept {decisions next : ι → Option ν} (step : Decides proposed decisions next)
    {who : ι} {value : ν} (decided : decisions who = some value) : next who = some value := by
  cases step with
  | @decide new made undecided known agrees =>
      rcases eq_or_ne who new with rfl | other
      · cases undecided.symm.trans decided
      · rw [Function.update_of_ne other]
        exact decided

theorem Decides.consistent {decisions next : ι → Option ν}
    (step : Decides proposed decisions next) : Consistent next := by
  cases step with
  | @decide new made undecided known agrees =>
      have settled : ∀ who value, Function.update decisions new (some made) who = some value →
          value = made := by
        intro who value decided
        rcases eq_or_ne who new with rfl | other
        · rw [Function.update_self] at decided
          exact (Option.some.inj decided).symm
        · rw [Function.update_of_ne other] at decided
          exact agrees who value decided
      intro one two first second here there
      rw [settled one first here, settled two second there]

/-- A decision stands, and no later decision differs from it. -/
theorem stands_of_reaches {decisions later : ι → Option ν} (consistent : Consistent decisions)
    (reached : Relation.ReflTransGen (Decides proposed) decisions later) {who : ι} {value : ν}
    (decided : decisions who = some value) :
    later who = some value ∧ ∀ other made, later other = some made → made = value := by
  obtain ⟨still, agree⟩ := Machine.reachable_invariant
    (I := fun decisions => decisions who = some value ∧ Consistent decisions)
    (fun _ _ holds step => ⟨step.kept holds.1, step.consistent⟩) ⟨decided, consistent⟩ reached
  exact ⟨still, fun other made after => agree other who made value after still⟩

end DvSpec.Library.Decree
