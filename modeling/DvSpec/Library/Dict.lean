import Mathlib.Data.List.Induction
import Mathlib.Data.List.Nodup
import Mathlib.Data.List.Basic

/-!
# Insertion-ordered dictionaries

A dictionary is a list of entries whose keys are pairwise distinct.  Assigning
to a present key keeps its position, and assigning to an absent key appends, so
iteration follows the order in which the keys were first inserted.
-/

namespace DvSpec.Library

/-- A finite map that remembers the order of first insertion of its keys. -/
structure Dict (κ : Type) (ν : Type) where
  entries : List (κ × ν)
  nodup : (entries.map Prod.fst).Nodup

namespace Dict

variable {κ ν : Type} [DecidableEq κ]

/-! ## Entry lists -/

/-- The value stored under a key in an entry list. -/
def lookup (key : κ) : List (κ × ν) → Option ν
  | [] => none
  | entry :: rest => if entry.1 = key then some entry.2 else lookup key rest

/-- Overwrite the entry of a key in place, or append a fresh entry. -/
def assign (key : κ) (value : ν) : List (κ × ν) → List (κ × ν)
  | [] => [(key, value)]
  | entry :: rest =>
      if entry.1 = key then (entry.1, value) :: rest else entry :: assign key value rest

theorem mem_keys_assign (key other : κ) (value : ν) (entries : List (κ × ν)) :
    other ∈ (assign key value entries).map Prod.fst ↔
      other = key ∨ other ∈ entries.map Prod.fst := by
  induction entries with
  | nil => simp [assign]
  | cons entry rest ih =>
      by_cases same : entry.1 = key
      · simp [assign, same]
      · simp only [assign, same, if_false, List.map_cons, List.mem_cons, ih]
        tauto

theorem map_fst_assign (key : κ) (value : ν) (entries : List (κ × ν)) :
    (assign key value entries).map Prod.fst =
      if key ∈ entries.map Prod.fst then entries.map Prod.fst
      else entries.map Prod.fst ++ [key] := by
  induction entries with
  | nil => simp [assign]
  | cons entry rest ih =>
      by_cases same : entry.1 = key
      · simp [assign, same]
      · simp only [assign, same, if_false, List.map_cons, ih, List.mem_cons, Ne.symm same, false_or]
        split <;> rfl

theorem nodup_assign (key : κ) (value : ν) {entries : List (κ × ν)}
    (distinct : (entries.map Prod.fst).Nodup) :
    ((assign key value entries).map Prod.fst).Nodup := by
  induction entries with
  | nil => simp [assign]
  | cons entry rest ih =>
      obtain ⟨fresh, tail⟩ := List.nodup_cons.mp distinct
      by_cases same : entry.1 = key
      · simpa [assign, same] using distinct
      · simp only [assign, same, if_false, List.map_cons]
        refine List.nodup_cons.mpr ⟨?_, ih tail⟩
        rw [mem_keys_assign]
        rintro (equal | old)
        · exact same equal
        · exact fresh old

theorem lookup_assign_self (key : κ) (value : ν) (entries : List (κ × ν)) :
    lookup key (assign key value entries) = some value := by
  induction entries with
  | nil => simp [assign, lookup]
  | cons entry rest ih =>
      by_cases same : entry.1 = key <;> simp [assign, lookup, same, ih]

theorem lookup_assign_ne {key other : κ} (value : ν) (entries : List (κ × ν))
    (different : other ≠ key) :
    lookup other (assign key value entries) = lookup other entries := by
  induction entries with
  | nil => simp [assign, lookup, different.symm]
  | cons entry rest ih =>
      by_cases same : entry.1 = key
      · have apart : entry.1 ≠ other := fun equal => different (equal.symm.trans same)
        simp [assign, lookup, same, different.symm]
      · simp [assign, lookup, same, ih]

theorem assign_assign (key : κ) (first second : ν) (entries : List (κ × ν)) :
    assign key second (assign key first entries) = assign key second entries := by
  induction entries with
  | nil => simp [assign]
  | cons entry rest ih =>
      by_cases same : entry.1 = key
      · simp [assign, same]
      · simp [assign, same, ih]

theorem mem_of_lookup {key : κ} {value : ν} {entries : List (κ × ν)}
    (found : lookup key entries = some value) : (key, value) ∈ entries := by
  induction entries with
  | nil => cases found
  | cons entry rest ih =>
      by_cases same : entry.1 = key
      · rw [lookup, if_pos same] at found
        cases found
        rw [← same]
        exact List.mem_cons_self
      · rw [lookup, if_neg same] at found
        exact List.mem_cons_of_mem _ (ih found)

theorem lookup_of_mem {key : κ} {value : ν} {entries : List (κ × ν)}
    (distinct : (entries.map Prod.fst).Nodup) (member : (key, value) ∈ entries) :
    lookup key entries = some value := by
  induction entries with
  | nil => cases member
  | cons entry rest ih =>
      obtain ⟨fresh, tail⟩ := List.nodup_cons.mp distinct
      rcases List.mem_cons.mp member with rfl | old
      · simp [lookup]
      · have apart : entry.1 ≠ key := by
          intro equal
          exact fresh (equal ▸ List.mem_map_of_mem (f := Prod.fst) old)
        rw [lookup, if_neg apart]
        exact ih tail old

/-! ## Dictionaries -/

/-- The empty dictionary. -/
def empty : Dict κ ν := ⟨[], List.nodup_nil⟩

/-- The value stored under a key, if any. -/
def get? (dict : Dict κ ν) (key : κ) : Option ν := lookup key dict.entries

/-- Whether a key is present. -/
def contains (dict : Dict κ ν) (key : κ) : Bool := (dict.get? key).isSome

/-- Assignment `dict[key] = value`. -/
def set (dict : Dict κ ν) (key : κ) (value : ν) : Dict κ ν :=
  ⟨assign key value dict.entries, nodup_assign key value dict.nodup⟩

/-- Deletion `del dict[key]`, which leaves an absent key absent. -/
def erase (dict : Dict κ ν) (key : κ) : Dict κ ν :=
  ⟨dict.entries.filter fun entry => entry.1 ≠ key,
    dict.nodup.sublist (List.filter_sublist.map Prod.fst)⟩

/-- The keys in insertion order. -/
def keys (dict : Dict κ ν) : List κ := dict.entries.map Prod.fst

/-- The values in insertion order of their keys. -/
def values (dict : Dict κ ν) : List ν := dict.entries.map Prod.snd

/-- The number of keys. -/
def size (dict : Dict κ ν) : Nat := dict.entries.length

@[simp]
theorem get?_empty (key : κ) : (empty : Dict κ ν).get? key = none := rfl

@[simp]
theorem contains_empty (key : κ) : (empty : Dict κ ν).contains key = false := rfl

@[simp]
theorem get?_set_self (dict : Dict κ ν) (key : κ) (value : ν) :
    (dict.set key value).get? key = some value :=
  lookup_assign_self key value dict.entries

theorem get?_set_ne (dict : Dict κ ν) {key other : κ} (value : ν) (different : other ≠ key) :
    (dict.set key value).get? other = dict.get? other :=
  lookup_assign_ne value dict.entries different

theorem get?_set (dict : Dict κ ν) (key other : κ) (value : ν) :
    (dict.set key value).get? other = if other = key then some value else dict.get? other := by
  by_cases same : other = key
  · subst same
    simp
  · rw [if_neg same, get?_set_ne dict value same]

/-- The last assignment to a key counts. -/
@[simp]
theorem set_set (dict : Dict κ ν) (key : κ) (first second : ν) :
    (dict.set key first).set key second = dict.set key second := by
  simp only [set, assign_assign]

theorem contains_set (dict : Dict κ ν) (key other : κ) (value : ν) :
    (dict.set key value).contains other = (decide (other = key) || dict.contains other) := by
  by_cases same : other = key <;> simp [contains, get?_set, same]

theorem mem_entries_iff (dict : Dict κ ν) (key : κ) (value : ν) :
    (key, value) ∈ dict.entries ↔ dict.get? key = some value :=
  ⟨lookup_of_mem dict.nodup, mem_of_lookup⟩

theorem mem_values_iff (dict : Dict κ ν) (value : ν) :
    value ∈ dict.values ↔ ∃ key, dict.get? key = some value := by
  simp only [values, List.mem_map, Prod.exists, exists_eq_right, mem_entries_iff]

theorem mem_keys_iff (dict : Dict κ ν) (key : κ) :
    key ∈ dict.keys ↔ ∃ value, dict.get? key = some value := by
  simp only [keys, List.mem_map, Prod.exists, exists_and_right, exists_eq_right, mem_entries_iff]

theorem mem_keys_set (dict : Dict κ ν) (key other : κ) (value : ν) :
    other ∈ (dict.set key value).keys ↔ other = key ∨ other ∈ dict.keys :=
  mem_keys_assign key other value dict.entries

/-- Assigning appends the key unless it is present. -/
theorem keys_set (dict : Dict κ ν) (key : κ) (value : ν) :
    (dict.set key value).keys = if key ∈ dict.keys then dict.keys else dict.keys ++ [key] :=
  map_fst_assign key value dict.entries

omit [DecidableEq κ] in
theorem keys_nodup (dict : Dict κ ν) : dict.keys.Nodup := dict.nodup

theorem get?_erase (dict : Dict κ ν) (key other : κ) :
    (dict.erase key).get? other = if other = key then none else dict.get? other := by
  refine Option.ext fun value => ?_
  have kept : (other, value) ∈ (dict.erase key).entries ↔
      (other, value) ∈ dict.entries ∧ other ≠ key := by
    rw [erase, List.mem_filter, decide_eq_true_iff]
  rw [← mem_entries_iff, kept, mem_entries_iff]
  split
  · rename_i same
    simp [same]
  · rename_i apart
    simp [apart]

/-- Dictionaries with the same keys in the same order and the same values are equal. -/
theorem eq_of_keys_eq {one two : Dict κ ν} (keys : one.keys = two.keys)
    (values : ∀ key, one.get? key = two.get? key) : one = two := by
  have size : one.entries.length = two.entries.length := by
    simpa only [Dict.keys, List.length_map] using congrArg List.length keys
  have entries : one.entries = two.entries := by
    refine List.ext_getElem size fun position inOne inTwo => ?_
    have key : one.entries[position].1 = two.entries[position].1 := by
      have here := congrArg (·[position]?) keys
      simpa [Dict.keys, List.getElem?_eq_getElem inOne, List.getElem?_eq_getElem inTwo] using here
    have stored : one.get? one.entries[position].1 = some one.entries[position].2 :=
      (one.mem_entries_iff _ _).mp (List.getElem_mem inOne)
    have storedToo : two.get? two.entries[position].1 = some two.entries[position].2 :=
      (two.mem_entries_iff _ _).mp (List.getElem_mem inTwo)
    rw [values, key, storedToo] at stored
    exact Prod.ext key (Option.some.inj stored).symm
  cases one
  cases two
  cases entries
  rfl

omit [DecidableEq κ] in
theorem length_values (dict : Dict κ ν) : dict.values.length = dict.size := List.length_map _

/-! ## Lists collected under keys -/

theorem perm_flatten_assign {α : Type} (key : κ) (value : α) (entries : List (κ × List α)) :
    ((assign key ((lookup key entries).getD [] ++ [value]) entries).map Prod.snd).flatten.Perm
      ((entries.map Prod.snd).flatten ++ [value]) := by
  induction entries with
  | nil => exact List.Perm.refl _
  | cons entry rest ih =>
      by_cases same : entry.1 = key
      · simp only [assign, lookup, same, if_true, Option.getD_some, List.map_cons,
          List.flatten_cons, List.append_assoc]
        exact List.Perm.append_left _ List.perm_append_comm
      · simp only [assign, lookup, same, if_false, List.map_cons, List.flatten_cons,
          List.append_assoc]
        exact List.Perm.append_left _ ih

/-- Appending to the list under a key adds one element to the collected lists. -/
theorem perm_flatten_values_append {α : Type} (dict : Dict κ (List α)) (key : κ) (value : α) :
    (dict.set key ((dict.get? key).getD [] ++ [value])).values.flatten.Perm
      (dict.values.flatten ++ [value]) :=
  perm_flatten_assign key value dict.entries

/-- A loop that updates the value under the key of every item leaves, for every key, the
updates with the items that carry it, and nothing when there are none. -/
theorem get?_foldl_update {α : Type} (key : α → κ) (default : ν) (update : ν → α → ν)
    (items : List α) (wanted : κ) :
    (items.foldl (fun dict item =>
        dict.set (key item) (update ((dict.get? (key item)).getD default) item)) empty).get? wanted =
      if items.filter (fun item => key item = wanted) = [] then none
      else some ((items.filter fun item => key item = wanted).foldl update default) := by
  induction items using List.reverseRecOn with
  | nil => rfl
  | append_singleton items item ih =>
      rw [List.foldl_append, List.foldl_cons, List.foldl_nil, get?_set, List.filter_append]
      by_cases same : wanted = key item
      · have kept : [item].filter (fun item => key item = wanted) = [item] := by simp [same]
        rw [if_pos same, ← same, ih, kept, if_neg (List.concat_ne_nil item _), List.foldl_append,
          List.foldl_cons, List.foldl_nil]
        split
        · rename_i none
          rw [none]
          rfl
        · rfl
      · have other : key item ≠ wanted := fun equal => same equal.symm
        have dropped : [item].filter (fun item => key item = wanted) = [] := by simp [other]
        rw [if_neg same, ih, dropped, List.append_nil]

/-- The items collected under their keys, each list in the order of the items. -/
def groupBy {α : Type} (key : α → κ) (items : List α) : Dict κ (List α) :=
  items.foldl (fun dict item => dict.set (key item) ((dict.get? (key item)).getD [] ++ [item]))
    empty

/-- A key holds the items that carry it, and is absent when there are none. -/
theorem get?_groupBy {α : Type} (key : α → κ) (items : List α) (wanted : κ) :
    (groupBy key items).get? wanted =
      if items.filter (fun item => key item = wanted) = [] then none
      else some (items.filter fun item => key item = wanted) := by
  have collected : ∀ group : List α, group.foldl (fun group item => group ++ [item]) [] = group := by
    intro group
    induction group using List.reverseRecOn with
    | nil => rfl
    | append_singleton group item ih => rw [List.foldl_append, ih, List.foldl_cons, List.foldl_nil]
  rw [groupBy, get?_foldl_update key [] fun group item => group ++ [item], collected]

theorem mem_values_groupBy {α : Type} (key : α → κ) (items group : List α) :
    group ∈ (groupBy key items).values ↔
      group ≠ [] ∧ ∃ wanted, items.filter (fun item => key item = wanted) = group := by
  rw [mem_values_iff]
  constructor
  · rintro ⟨wanted, found⟩
    rw [get?_groupBy] at found
    split at found
    · cases found
    · rename_i nonempty
      cases found
      exact ⟨nonempty, wanted, rfl⟩
  · rintro ⟨nonempty, wanted, rfl⟩
    exact ⟨wanted, by rw [get?_groupBy, if_neg nonempty]⟩

/-! ## Dictionaries built from entries -/

/-- Assign the entries one after another, as a dictionary display does. -/
def ofEntries (entries : List (κ × ν)) : Dict κ ν :=
  entries.foldl (fun dict entry => dict.set entry.1 entry.2) empty

theorem ofEntries_concat (entries : List (κ × ν)) (entry : κ × ν) :
    ofEntries (entries ++ [entry]) = (ofEntries entries).set entry.1 entry.2 := by
  rw [ofEntries, List.foldl_append]
  rfl

theorem assign_of_fresh {key : κ} (value : ν) {entries : List (κ × ν)}
    (fresh : key ∉ entries.map Prod.fst) :
    assign key value entries = entries ++ [(key, value)] := by
  induction entries with
  | nil => rfl
  | cons entry rest ih =>
      rw [List.map_cons, List.mem_cons, not_or] at fresh
      rw [assign, if_neg (Ne.symm fresh.1), ih fresh.2]
      rfl

/-- Entries with distinct keys are kept as they are. -/
theorem entries_ofEntries {entries : List (κ × ν)} (distinct : (entries.map Prod.fst).Nodup) :
    (ofEntries entries).entries = entries := by
  induction entries using List.reverseRecOn with
  | nil => rfl
  | append_singleton entries entry ih =>
      rw [List.map_append, List.nodup_append] at distinct
      have fresh : entry.1 ∉ entries.map Prod.fst := fun old =>
        distinct.2.2 _ old _ (by simp) rfl
      have added : (ofEntries (entries ++ [entry])).entries =
          assign entry.1 entry.2 (ofEntries entries).entries := by
        rw [ofEntries_concat]
        rfl
      rw [added, ih distinct.1, assign_of_fresh _ fresh]

end Dict

end DvSpec.Library
