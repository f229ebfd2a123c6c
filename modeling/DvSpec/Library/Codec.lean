import DvSpec.Library.Json
import Mathlib.Algebra.Group.Nat.Defs

/-!
# Declared models of documents

A model declares its fields once: the key under which each is written, how its value is
validated and serialized, and its default.  A codec joins the two directions with the proof
that validating what was serialized gives the value back, and a model inherits the proof
from its fields.
-/

namespace DvSpec.Library

/-! ## Validation -/

/-- A step on the way to a rejected value. -/
inductive Location where
  | key (name : String)
  | index (position : Nat)
  deriving DecidableEq

/-- A rejected value: where it stands and what is wrong with it. -/
structure LineError where
  loc : List Location
  message : String
  deriving DecidableEq

/-- A validated value, or everything that was wrong. -/
inductive Validated (α : Type) where
  | valid (value : α)
  | invalid (errors : List LineError)

namespace Validated

variable {α β : Type}

/-- Apply a validated function to a validated argument; errors of both are reported. -/
def ap : Validated (α → β) → Validated α → Validated β
  | valid f, valid value => valid (f value)
  | valid _, invalid errors => invalid errors
  | invalid errors, valid _ => invalid errors
  | invalid errors, invalid more => invalid (errors ++ more)

/-- Validate further what is valid so far. -/
def andThen (first : Validated α) (next : α → Validated β) : Validated β :=
  match first with
  | valid value => next value
  | invalid errors => invalid errors

/-- Errors seen from the enclosing value. -/
def under (step : Location) : Validated α → Validated α
  | valid value => valid value
  | invalid errors => invalid (errors.map fun error => { error with loc := step :: error.loc })

/-- A check that answers with the message of its error. -/
def ofExcept : Except String α → Validated α
  | .ok value => valid value
  | .error message => invalid [⟨[], message⟩]

end Validated

/-- Both directions of a declared type. -/
structure Codec (α : Type) where
  serialize : α → Json
  validate : Json → Validated α
  validate_serialize : ∀ value, validate (serialize value) = .valid value
  wellFormed : ∀ value, (serialize value).WellFormed

namespace Codec

variable {α β : Type}

/-- A validator that sees the document first. -/
def before (codec : Codec α) (prepare : Json → Json)
    (neutral : ∀ value, prepare (codec.serialize value) = codec.serialize value) : Codec α where
  serialize := codec.serialize
  validate document := codec.validate (prepare document)
  validate_serialize value := by rw [neutral, codec.validate_serialize]
  wellFormed := codec.wellFormed

/-- A check of the validated value. -/
def checked (codec : Codec α) (view : β → α) (check : α → Except String β)
    (passes : ∀ value, check (view value) = .ok value) : Codec β where
  serialize value := codec.serialize (view value)
  validate document := (codec.validate document).andThen fun value => .ofExcept (check value)
  validate_serialize value := by
    rw [codec.validate_serialize]
    exact congrArg Validated.ofExcept (passes value)
  wellFormed value := codec.wellFormed (view value)

/-! ## Lists -/

/-- The items of a list, from a position on. -/
def validateItems (codec : Codec α) : Nat → List Json → Validated (List α)
  | _, [] => .valid []
  | position, item :: rest =>
      ((Validated.valid List.cons).ap ((codec.validate item).under (.index position))).ap
        (validateItems codec (position + 1) rest)

theorem validateItems_map (codec : Codec α) (position : Nat) (items : List α) :
    codec.validateItems position (items.map codec.serialize) = .valid items := by
  induction items generalizing position with
  | nil => rfl
  | cons item rest ih =>
      rw [List.map_cons, validateItems, codec.validate_serialize, ih]
      rfl

def list (codec : Codec α) : Codec (List α) where
  serialize items := .arr (items.map codec.serialize)
  validate
    | .arr items => codec.validateItems 0 items
    | _ => .invalid [⟨[], "Input should be a valid list"⟩]
  validate_serialize items := codec.validateItems_map 0 items
  wellFormed items := by
    refine .arr fun document member => ?_
    obtain ⟨item, -, rfl⟩ := List.mem_map.mp member
    exact codec.wellFormed item

end Codec

/-! ## Scalars -/

/-- How values of a document become strings, numbers and booleans: each its own kind is
taken as it is, and a number may also be written as a decimal string. -/
structure Coercions where
  text : Json → Except String String
  integer : Json → Except String Int
  boolean : Json → Except String Bool
  text_str : ∀ value, text (.str value) = .ok value
  integer_num : ∀ value, integer (.num value) = .ok value
  integer_decimal : ∀ value : Nat, value < 2 ^ 64 →
    integer (.str (toString value)) = .ok (value : Int)
  boolean_bool : ∀ value, boolean (.bool value) = .ok value

namespace Coercions

variable (coercions : Coercions)

def str : Codec String where
  serialize := .str
  validate document := .ofExcept (coercions.text document)
  validate_serialize value := congrArg Validated.ofExcept (coercions.text_str value)
  wellFormed := .str

def bool : Codec Bool where
  serialize := .bool
  validate document := .ofExcept (coercions.boolean document)
  validate_serialize value := congrArg Validated.ofExcept (coercions.boolean_bool value)
  wellFormed := .bool

/-- A number that is not negative and lies below a bound. -/
def bounded (bound : Nat) (value : Int) : Except String { value : Nat // value < bound } :=
  if value < 0 then .error "Input should be greater than or equal to 0"
  else if fits : value.toNat < bound then .ok ⟨value.toNat, fits⟩
  else
    let greatest := bound - 1
    .error s!"Input should be less than or equal to {greatest}"

theorem bounded_natCast {bound : Nat} (value : { value : Nat // value < bound }) :
    bounded bound (value.val : Int) = .ok value := by
  have fits : (value.val : Int).toNat < bound := by simpa using value.property
  rw [bounded, if_neg (by omega), dif_pos fits]
  rfl

/-- The numbers below a bound that a document holds. -/
def natural (bound : Nat) (document : Json) : Validated { value : Nat // value < bound } :=
  (Validated.ofExcept (coercions.integer document)).andThen fun value =>
    .ofExcept (bounded bound value)

/-- Numbers written as numbers. -/
def nat (bound : Nat) : Codec { value : Nat // value < bound } where
  serialize value := .num value.val
  validate := coercions.natural bound
  validate_serialize value := by
    rw [natural, coercions.integer_num]
    exact congrArg Validated.ofExcept (bounded_natCast value)
  wellFormed value := .num value.val

/-- Numbers written as decimal strings. -/
def decimalNat (bound : Nat) (small : bound ≤ 2 ^ 64) : Codec { value : Nat // value < bound } where
  serialize value := .str (toString value.val)
  validate := coercions.natural bound
  validate_serialize value := by
    rw [natural, coercions.integer_decimal value.val (Nat.lt_of_lt_of_le value.property small)]
    exact congrArg Validated.ofExcept (bounded_natCast value)
  wellFormed value := .str (toString value.val)

end Coercions

/-! ## Fields -/

/-- A declared field: its name, and the alias it is written under if it has one. -/
structure FieldInfo where
  name : String
  aliasName : Option String
  deriving DecidableEq

namespace FieldInfo

/-- The key a field is written under. -/
def key (info : FieldInfo) : String := info.aliasName.getD info.name

/-- The entry of a field: by its alias, else by its name. -/
def find? (info : FieldInfo) (entries : List (String × Json)) : Option (String × Json) :=
  match Dict.lookup info.key entries with
  | some value => some (info.key, value)
  | none => (Dict.lookup info.name entries).map fun value => (info.name, value)

theorem find?_of_lookup {info : FieldInfo} {entries : List (String × Json)} {value : Json}
    (found : Dict.lookup info.key entries = some value) :
    info.find? entries = some (info.key, value) := by
  rw [find?, found]

end FieldInfo

/-- The value of a field: what its entry holds, else its default, which is not validated. -/
def readField {α : Type} (info : FieldInfo) (codec : Codec α) (default : Option α)
    (entries : List (String × Json)) : Validated α :=
  match info.find? entries with
  | some (key, value) => (codec.validate value).under (.key key)
  | none =>
      match default with
      | some value => .valid value
      | none => .invalid [⟨[.key info.key], "Field required"⟩]

/-- Fields of records `ρ` that are read into a value `α`.  In entries that hold what was
written, each under its key, they read the view of the record again. -/
structure ModelFields (ρ α : Type) where
  keys : List String
  write : ρ → List (String × Json)
  read : List (String × Json) → Validated α
  used : List (String × Json) → List String
  view : ρ → α
  map_fst_write : ∀ record, (write record).map Prod.fst = keys
  wellFormed : ∀ record, ∀ entry ∈ write record, entry.2.WellFormed
  reads : ∀ record entries,
    (∀ entry ∈ write record, Dict.lookup entry.1 entries = some entry.2) →
      read entries = .valid (view record) ∧ used entries = keys

namespace ModelFields

variable {ρ α β : Type}

/-- No fields yet: what the fields will be handed to. -/
def of (build : α) : ModelFields ρ α where
  keys := []
  write _ := []
  read _ := .valid build
  used _ := []
  view _ := build
  map_fst_write _ := rfl
  wellFormed _ _ member := by cases member
  reads _ _ _ := ⟨rfl, rfl⟩

/-- One more field. -/
def field (fields : ModelFields ρ (α → β)) (info : FieldInfo) (get : ρ → α) (codec : Codec α)
    (default : Option α) : ModelFields ρ β where
  keys := fields.keys ++ [info.key]
  write record := fields.write record ++ [(info.key, codec.serialize (get record))]
  read entries := (fields.read entries).ap (readField info codec default entries)
  used entries := fields.used entries ++ ((info.find? entries).map Prod.fst).toList
  view record := fields.view record (get record)
  map_fst_write record := by rw [List.map_append, fields.map_fst_write]; rfl
  wellFormed record := by
    refine List.forall_mem_append.mpr ⟨fields.wellFormed record, ?_⟩
    exact List.forall_mem_singleton.mpr (codec.wellFormed (get record))
  reads record entries present := by
    obtain ⟨earlier, last⟩ := List.forall_mem_append.mp present
    obtain ⟨read, used⟩ := fields.reads record entries earlier
    have here : Dict.lookup info.key entries = some (codec.serialize (get record)) :=
      last (info.key, codec.serialize (get record)) List.mem_cons_self
    have found := FieldInfo.find?_of_lookup here
    have value : readField info codec default entries = .valid (get record) := by
      unfold readField
      simp only [found, codec.validate_serialize]
      rfl
    rw [read, used, value, found]
    exact ⟨rfl, rfl⟩

/-- A field without a default. -/
def required (fields : ModelFields ρ (α → β)) (info : FieldInfo) (get : ρ → α) (codec : Codec α) :
    ModelFields ρ β := fields.field info get codec none

/-- A field with a default. -/
def defaulted (fields : ModelFields ρ (α → β)) (info : FieldInfo) (get : ρ → α) (codec : Codec α)
    (default : α) : ModelFields ρ β := fields.field info get codec (some default)

@[simp]
theorem keys_of (build : α) : (of build : ModelFields ρ α).keys = [] := rfl

@[simp]
theorem keys_required (fields : ModelFields ρ (α → β)) (info : FieldInfo) (get : ρ → α)
    (codec : Codec α) : (fields.required info get codec).keys = fields.keys ++ [info.key] := rfl

@[simp]
theorem keys_defaulted (fields : ModelFields ρ (α → β)) (info : FieldInfo) (get : ρ → α)
    (codec : Codec α) (default : α) :
    (fields.defaulted info get codec default).keys = fields.keys ++ [info.key] := rfl

end ModelFields

/-! ## Models -/

/-- Refuse the entries that no field has read. -/
def forbidExtra (used : List String) (entries : List (String × Json)) : Validated Unit :=
  match entries.filter fun entry => entry.1 ∉ used with
  | [] => .valid ()
  | extra => .invalid (extra.map fun entry =>
      ⟨[.key entry.1], "Extra inputs are not permitted"⟩)

/-- A model with the given fields, which are checked together at the end. -/
def Codec.model {ρ α : Type} (title : String) (fields : ModelFields ρ α) (after : α → Validated ρ)
    (distinct : fields.keys.Nodup)
    (rebuilds : ∀ record, after (fields.view record) = .valid record) : Codec ρ where
  serialize record := .obj (fields.write record)
  validate
    | .obj entries =>
        (((Validated.valid fun value _ => value).ap (fields.read entries)).ap
          (forbidExtra (fields.used entries) entries)).andThen after
    | _ => .invalid [⟨[], s!"Input should be a valid dictionary or instance of {title}"⟩]
  validate_serialize record := by
    have keys : ((fields.write record).map Prod.fst).Nodup := by
      rw [fields.map_fst_write]
      exact distinct
    obtain ⟨read, used⟩ := fields.reads record (fields.write record) fun entry member =>
      Dict.lookup_of_mem keys member
    have none : (fields.write record).filter (fun entry => entry.1 ∉ fields.keys) = [] := by
      refine List.filter_eq_nil_iff.mpr fun entry member => ?_
      rw [← fields.map_fst_write record]
      simpa using ⟨entry.2, member⟩
    simp only [read, used, forbidExtra, none]
    exact rebuilds record
  wellFormed record := by
    refine .obj ?_ (fields.wellFormed record)
    rw [fields.map_fst_write]
    exact distinct

end DvSpec.Library
