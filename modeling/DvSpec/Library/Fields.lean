import DvSpec.Library.Raising

/-!
# Records built field by field

A record is built from arguments that may be missing.  A supplied argument passes
the check of its field or is refused with a message; a missing one is replaced by
the default of the field, which is not checked.  Later checks see earlier fields.
-/

namespace DvSpec.Library.Fields

/-- What a caller passes for a field: nothing, something of another type, or a value. -/
inductive Argument (α : Type) where
  | omitted
  | illTyped (message : String)
  | supplied (value : α)
  deriving DecidableEq

variable {α : Type}

/-- A value passes a check, which answers with a message or with nothing. -/
def checked (check : α → Option String) (value : α) : Except String α :=
  match check value with
  | none => .ok value
  | some message => .error message

/-- A field without a default. -/
def required (check : α → Option String) : Argument α → Except String α
  | .omitted => .error "Field required"
  | .illTyped message => .error message
  | .supplied value => checked check value

/-- A field with a default, which passes unchecked. -/
def defaulted (default : α) (check : α → Option String) : Argument α → Except String α
  | .omitted => .ok default
  | .illTyped message => .error message
  | .supplied value => checked check value

/-- What the checks of later fields see of a field.  Whether they see a default is a
matter of the library that runs the checks. -/
def earlier (seesDefaults : Bool) (argument : Argument α) (field : Except String α) : Option α :=
  match argument with
  | .omitted => if seesDefaults then field.toOption else none
  | _ => field.toOption

/-- The message with which a field was refused. -/
def refusal : Except String α → Option String
  | .ok _ => none
  | .error message => some message

theorem checked_eq_ok_iff {check : α → Option String} {value result : α} :
    checked check value = .ok result ↔ value = result ∧ check value = none := by
  unfold checked
  cases check value <;> simp

theorem required_eq_ok_iff {check : α → Option String} {argument : Argument α} {result : α} :
    required check argument = .ok result ↔
      argument = .supplied result ∧ check result = none := by
  cases argument with
  | omitted => simp [required]
  | illTyped message => simp [required]
  | supplied value =>
      rw [required, checked_eq_ok_iff, Argument.supplied.injEq]
      exact and_congr_right fun same => same ▸ Iff.rfl

theorem defaulted_eq_ok_iff {default : α} {check : α → Option String} {argument : Argument α}
    {result : α} :
    defaulted default check argument = .ok result ↔
      argument = .omitted ∧ default = result ∨
        argument = .supplied result ∧ check result = none := by
  cases argument with
  | omitted => simp [defaulted]
  | illTyped message => simp [defaulted]
  | supplied value =>
      rw [defaulted, checked_eq_ok_iff, Argument.supplied.injEq]
      constructor
      · rintro ⟨rfl, passes⟩
        exact Or.inr ⟨rfl, passes⟩
      · rintro (⟨absent, -⟩ | ⟨rfl, passes⟩)
        · cases absent
        · exact ⟨rfl, passes⟩

@[simp]
theorem refusal_checked (check : α → Option String) (value : α) :
    refusal (checked check value) = check value := by
  unfold checked
  cases check value <;> rfl

theorem refusal_eq_none_iff {field : Except String α} :
    refusal field = none ↔ ∃ value, field = .ok value := by
  cases field <;> simp [refusal]

end DvSpec.Library.Fields
