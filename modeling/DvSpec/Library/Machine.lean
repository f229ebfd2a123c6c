import Mathlib.Data.List.Basic
import Mathlib.Logic.Relation

/-!
# Runs of step functions

A step function consumes an input, answers with an output and replaces the
state.  A run folds it over a list of inputs; its trace pairs every input with
the state it was consumed in.  The rules below turn a fact about one step into a
fact about every run, under a condition on the steps of that run.
-/

namespace DvSpec.Library.Machine

variable {σ ι ο : Type} (step : σ → ι → ο × σ)

/-- The state after consuming the inputs in order. -/
def final (state : σ) : List ι → σ
  | [] => state
  | input :: rest => final (step state input).2 rest

/-- Every input together with the state it was consumed in. -/
def trace (state : σ) : List ι → List (σ × ι)
  | [] => []
  | input :: rest => (state, input) :: trace (step state input).2 rest

/-- The answers of a run, in the order of its inputs. -/
def outputs (state : σ) : List ι → List ο
  | [] => []
  | input :: rest => (step state input).1 :: outputs (step state input).2 rest

/-- Every step of a run meets a condition on its state and input. -/
def Along (condition : σ → ι → Prop) (state : σ) (inputs : List ι) : Prop :=
  ∀ point ∈ trace step state inputs, condition point.1 point.2

/-- A property holds in the first state and after every step of a run. -/
def Always (property : σ → Prop) (state : σ) : List ι → Prop
  | [] => property state
  | input :: rest => property state ∧ Always property (step state input).2 rest

variable {step}

theorem final_append (state : σ) (first second : List ι) :
    final step state (first ++ second) = final step (final step state first) second := by
  induction first generalizing state with
  | nil => rfl
  | cons input rest ih => exact ih _

theorem Along.head {condition : σ → ι → Prop} {state : σ} {input : ι} {rest : List ι}
    (along : Along step condition state (input :: rest)) : condition state input :=
  along _ List.mem_cons_self

theorem Along.tail {condition : σ → ι → Prop} {state : σ} {input : ι} {rest : List ι}
    (along : Along step condition state (input :: rest)) :
    Along step condition (step state input).2 rest :=
  fun point member => along point (List.mem_cons_of_mem _ member)

theorem Always.head {property : σ → Prop} {state : σ} {inputs : List ι}
    (always : Always step property state inputs) : property state := by
  cases inputs with
  | nil => exact always
  | cons input rest => exact always.1

theorem Always.imp {property weaker : σ → Prop} {state : σ} {inputs : List ι}
    (always : Always step property state inputs)
    (weaken : ∀ state, property state → weaker state) : Always step weaker state inputs := by
  induction inputs generalizing state with
  | nil => exact weaken state always
  | cons input rest ih => exact ⟨weaken state always.1, ih always.2⟩

theorem Always.along {property : σ → Prop} {state : σ} {inputs : List ι}
    (always : Always step property state inputs) :
    Along step (fun state input => property state ∧ property (step state input).2) state
      inputs := by
  induction inputs generalizing state with
  | nil => simp [Along, trace]
  | cons input rest ih =>
      intro point member
      rcases List.mem_cons.mp member with rfl | later
      · exact ⟨always.1, always.2.head⟩
      · exact ih always.2 point later

section Rules

variable {C : σ → ι → Prop} {I : σ → Prop}

theorem along_nil {state : σ} :
    Along step C state [] := by
  simp [Along, trace]

theorem along_cons {state : σ} {input : ι} {rest : List ι} :
    Along step C state (input :: rest) ↔
      C state input ∧ Along step C (step state input).2 rest := by
  refine ⟨fun along => ⟨along.head, along.tail⟩, ?_⟩
  rintro ⟨here, later⟩ point member
  rcases List.mem_cons.mp member with rfl | member
  · exact here
  · exact later point member

/-- An invariant `I` kept by every step that meets the condition `C` holds at the end of
every run whose steps all meet it. -/
theorem final_invariant
    (keep : ∀ state input, I state → C state input →
      I (step state input).2)
    {state : σ} {inputs : List ι} (initially : I state)
    (along : Along step C state inputs) : I (final step state inputs) := by
  induction inputs generalizing state with
  | nil => exact initially
  | cons input rest ih =>
      exact ih (keep state input initially along.head) along.tail

/-- The same invariant holds in every state of the run. -/
theorem always_invariant
    (keep : ∀ state input, I state → C state input →
      I (step state input).2)
    {state : σ} {inputs : List ι} (initially : I state)
    (along : Along step C state inputs) : Always step I state inputs := by
  induction inputs generalizing state with
  | nil => exact initially
  | cons input rest ih =>
      exact ⟨initially, ih (keep state input initially along.head) along.tail⟩

/-- The same invariant holds in every state in which the run consumed an input. -/
theorem trace_invariant
    (keep : ∀ state input, I state → C state input →
      I (step state input).2)
    {state : σ} {inputs : List ι} (initially : I state)
    (along : Along step C state inputs) :
    ∀ point ∈ trace step state inputs, I point.1 := by
  induction inputs generalizing state with
  | nil => simp [trace]
  | cons input rest ih =>
      intro point member
      rcases List.mem_cons.mp member with rfl | later
      · exact initially
      · exact ih (keep state input initially along.head) along.tail point later

/-- Conditions that agree under an invariant hold along the same runs. -/
theorem along_congr {D : σ → ι → Prop}
    (keep : ∀ state input, I state → I (step state input).2)
    (same : ∀ state input, I state → (C state input ↔ D state input))
    {state : σ} {inputs : List ι} (initially : I state) :
    Along step C state inputs ↔ Along step D state inputs := by
  induction inputs generalizing state with
  | nil => exact iff_of_true along_nil along_nil
  | cons input rest ih =>
      rw [along_cons, along_cons, same state input initially, ih (keep state input initially)]

/-- Relate every earlier step of a run to every later one through a predicate
`A` that the earlier step establishes and all steps keep. -/
theorem trace_pairwise {relation : σ × ι → σ × ι → Prop} {A : σ × ι → σ → Prop}
    (keep : ∀ state input, I state → C state input →
      I (step state input).2)
    (establish : ∀ state input, I state → C state input →
      A (state, input) (step state input).2)
    (maintain : ∀ point state input, I state → C state input →
      A point state → A point (step state input).2)
    (relate : ∀ point state input, I state → C state input →
      A point state → relation point (state, input))
    {state : σ} {inputs : List ι} (initially : I state)
    (along : Along step C state inputs) :
    (trace step state inputs).Pairwise relation := by
  have later : ∀ point (inputs : List ι) (state : σ), I state → A point state →
      Along step C state inputs →
      ∀ other ∈ trace step state inputs, relation point other := by
    intro point inputs
    induction inputs with
    | nil => intro state _ _ _; simp [trace]
    | cons input rest ih =>
        intro state holds since along other member
        rcases List.mem_cons.mp member with rfl | member
        · exact relate point state input holds along.head since
        · exact ih _ (keep state input holds along.head)
            (maintain point state input holds along.head since) along.tail other member
  induction inputs generalizing state with
  | nil => exact List.Pairwise.nil
  | cons input rest ih =>
      have next := keep state input initially along.head
      exact List.Pairwise.cons
        (later _ rest _ next (establish state input initially along.head) along.tail)
        (ih next along.tail)

end Rules

/-! ## Nondeterministic systems -/

/-- An invariant of a transition relation holds in every reachable state. -/
theorem reachable_invariant {transition : σ → σ → Prop} {I : σ → Prop}
    (keep : ∀ state next, I state → transition state next → I next)
    {start state : σ} (initially : I start)
    (reached : Relation.ReflTransGen transition start state) : I state := by
  induction reached with
  | refl => exact initially
  | tail _ edge ih => exact keep _ _ ih edge

/-- When every step from a state that keeps an invariant is seen as a step of another system or
not at all, runs are seen as runs. -/
theorem reachable_simulates {τ : Type} {transition : σ → σ → Prop} {abstract : τ → τ → Prop}
    {I : σ → Prop} {view : σ → τ}
    (keep : ∀ state next, I state → transition state next → I next)
    (seen : ∀ state next, I state → transition state next →
      view next = view state ∨ abstract (view state) (view next))
    {start state : σ} (initially : I start)
    (reached : Relation.ReflTransGen transition start state) :
    Relation.ReflTransGen abstract (view start) (view state) := by
  induction reached with
  | refl => exact Relation.ReflTransGen.refl
  | tail before edge ih =>
      rcases seen _ _ (reachable_invariant keep initially before) edge with same | taken
      · rw [same]
        exact ih
      · exact ih.tail taken

end DvSpec.Library.Machine
