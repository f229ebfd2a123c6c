import DvSpec.Library.Dict
import Mathlib.Data.List.Sort

/-!
# Orders of arrival

The keys of a sequence in the order of their first occurrences.  A dictionary
that is filled from the sequence iterates in this order, and a stable sort keeps
it among ties.
-/

namespace DvSpec.Library.Arrival

section Keys

variable {κ : Type} [DecidableEq κ]

/-- Append a key unless it has arrived before. -/
def arrive (seen : List κ) (key : κ) : List κ := if key ∈ seen then seen else seen ++ [key]

/-- The distinct keys in the order of their first occurrences. -/
def arrivals (keys : List κ) : List κ := keys.foldl arrive []

theorem arrivals_concat (keys : List κ) (key : κ) :
    arrivals (keys ++ [key]) = arrive (arrivals keys) key := by
  rw [arrivals, List.foldl_append]
  rfl

theorem mem_arrivals {keys : List κ} {key : κ} : key ∈ arrivals keys ↔ key ∈ keys := by
  induction keys using List.reverseRecOn with
  | nil => exact Iff.rfl
  | append_singleton keys last ih =>
      rw [arrivals_concat, arrive, List.mem_append, List.mem_singleton, ← ih]
      split
      · rename_i old
        constructor
        · exact Or.inl
        · rintro (seen | rfl)
          · exact seen
          · exact old
      · rw [List.mem_append, List.mem_singleton]

theorem arrivals_concat_of_mem {keys : List κ} {key : κ} (old : key ∈ keys) :
    arrivals (keys ++ [key]) = arrivals keys := by
  rw [arrivals_concat, arrive, if_pos (mem_arrivals.mpr old)]

theorem arrivals_concat_of_notMem {keys : List κ} {key : κ} (new : key ∉ keys) :
    arrivals (keys ++ [key]) = arrivals keys ++ [key] := by
  rw [arrivals_concat, arrive, if_neg fun old => new (mem_arrivals.mp old)]

theorem nodup_arrivals (keys : List κ) : (arrivals keys).Nodup := by
  induction keys using List.reverseRecOn with
  | nil => exact List.nodup_nil
  | append_singleton keys last ih =>
      by_cases old : last ∈ keys
      · rw [arrivals_concat_of_mem old]
        exact ih
      · rw [arrivals_concat_of_notMem old]
        refine List.nodup_append.mpr ⟨ih, List.nodup_singleton last, ?_⟩
        rintro one earlier _ here rfl
        rw [List.mem_singleton] at here
        exact old (here ▸ mem_arrivals.mp earlier)

/-- A relation holds along the arrivals when every key that arrives is related to all keys
before it. -/
theorem pairwise_arrivals_iff {relation : κ → κ → Prop} {keys : List κ} :
    (arrivals keys).Pairwise relation ↔
      ∀ before key after, keys = before ++ key :: after → key ∉ before →
        ∀ earlier ∈ before, relation earlier key := by
  induction keys using List.reverseRecOn with
  | nil =>
      refine ⟨fun _ before key after split => ?_, fun _ => List.Pairwise.nil⟩
      simp at split
  | append_singleton keys last ih =>
      -- a split lies within the earlier keys, or is at the last one
      have splits : ∀ before key after, keys ++ [last] = before ++ key :: after →
          (before = keys ∧ key = last) ∨ ∃ rest, keys = before ++ key :: rest := by
        intro before key after split
        rcases List.eq_nil_or_concat after with rfl | ⟨rest, final, rfl⟩
        · obtain ⟨same, here⟩ := List.append_inj' split rfl
          exact Or.inl ⟨same.symm, (List.singleton_inj.mp here).symm⟩
        · have grouped : keys ++ [last] = (before ++ key :: rest) ++ [final] := by
            rw [split, List.concat_eq_append, List.append_assoc, List.cons_append]
          exact Or.inr ⟨rest, (List.append_inj' grouped rfl).1⟩
      have extend : ∀ before key rest, keys = before ++ key :: rest →
          keys ++ [last] = before ++ key :: (rest ++ [last]) := by
        rintro before key rest rfl
        rw [List.append_assoc, List.cons_append]
      by_cases old : last ∈ keys
      · rw [arrivals_concat_of_mem old, ih]
        constructor
        · intro related before key after split fresh
          rcases splits before key after split with ⟨rfl, rfl⟩ | ⟨rest, within⟩
          · exact absurd old fresh
          · exact related before key rest within fresh
        · intro related before key after within
          exact related before key _ (extend before key after within)
      · rw [arrivals_concat_of_notMem old, List.pairwise_append, ih]
        constructor
        · rintro ⟨related, -, new⟩ before key after split fresh earlier member
          rcases splits before key after split with ⟨rfl, rfl⟩ | ⟨rest, within⟩
          · exact new earlier (mem_arrivals.mpr member) _ (List.mem_singleton.mpr rfl)
          · exact related before key rest within fresh earlier member
        · intro related
          refine ⟨fun before key after within => ?_, List.pairwise_singleton _ _, ?_⟩
          · exact related before key _ (extend before key after within)
          · intro earlier arrived key here
            rw [List.mem_singleton.mp here]
            exact related keys last [] rfl old earlier (mem_arrivals.mp arrived)

/-- The same for the keys of some of a sequence of items. -/
theorem pairwise_arrivals_filter_iff {α : Type} {key : α → κ} {kept : α → Bool}
    {relation : κ → κ → Prop} {items : List α} :
    (arrivals ((items.filter kept).map key)).Pairwise relation ↔
      ∀ before item after, items = before ++ item :: after → kept item = true →
        (∀ earlier ∈ before.filter kept, key earlier ≠ key item) →
          ∀ earlier ∈ before.filter kept, relation (key earlier) (key item) := by
  rw [pairwise_arrivals_iff]
  constructor
  · rintro related before item after rfl own fresh earlier member
    refine related ((before.filter kept).map key) (key item) ((after.filter kept).map key) ?_ ?_
      (key earlier) (List.mem_map_of_mem member)
    · rw [List.filter_append, List.filter_cons_of_pos own, List.map_append, List.map_cons]
    · intro known
      obtain ⟨other, among, same⟩ := List.mem_map.mp known
      exact fresh other among same
  · intro related before wanted after split fresh earlier member
    obtain ⟨first, rest, filtered, rfl, restKeys⟩ := List.map_eq_append_iff.mp split
    obtain ⟨item, later, rfl, rfl, -⟩ := List.map_eq_cons_iff.mp restKeys
    obtain ⟨front, back, rfl, rfl, backFiltered⟩ := List.filter_eq_append_iff.mp filtered
    obtain ⟨dropped, tail, rfl, none, own, -⟩ := List.filter_eq_cons_iff.mp backFiltered
    have same : (front ++ dropped).filter kept = front.filter kept := by
      rw [List.filter_append, List.filter_eq_nil_iff.mpr none, List.append_nil]
    obtain ⟨one, among, rfl⟩ := List.mem_map.mp member
    refine related (front ++ dropped) item tail (by rw [List.append_assoc]) own ?_ one
      (same ▸ among)
    intro other inFront equal
    exact fresh (equal ▸ List.mem_map_of_mem (same ▸ inFront))

/-- An occurrence of one key lies before all occurrences of another. -/
def Precedes (keys : List κ) (one two : κ) : Prop :=
  ∃ before after, keys = before ++ one :: after ∧ two ≠ one ∧ two ∉ before

theorem pairwise_precedes (keys : List κ) : (arrivals keys).Pairwise (Precedes keys) := by
  rw [pairwise_arrivals_iff]
  rintro before key after rfl fresh earlier member
  obtain ⟨first, second, rfl⟩ := List.append_of_mem member
  refine ⟨first, second ++ key :: after, by rw [List.append_assoc, List.cons_append], ?_, ?_⟩
  · rintro rfl
    exact fresh (List.mem_append_right _ List.mem_cons_self)
  · exact fun old => fresh (List.mem_append_left _ old)

/-- A dictionary filled by assignments has its keys in the order of arrival. -/
theorem keys_foldl_set {α ν : Type} (key : α → κ) (value : Dict κ ν → α → ν) (items : List α) :
    (items.foldl (fun dict item => dict.set (key item) (value dict item)) Dict.empty).keys =
      arrivals (items.map key) := by
  induction items using List.reverseRecOn with
  | nil => rfl
  | append_singleton items item ih =>
      rw [List.foldl_append, List.foldl_cons, List.foldl_nil, Dict.keys_set, ih, List.map_append,
        List.map_singleton, arrivals_concat, arrive]

/-- The last assignment to a key remains. -/
theorem get?_foldl_set {α ν : Type} (key : α → κ) (value : α → ν) (items : List α) (wanted : κ) :
    (items.foldl (fun dict item => dict.set (key item) (value item)) Dict.empty).get? wanted =
      ((items.filter fun item => key item = wanted).getLast?).map value := by
  induction items using List.reverseRecOn with
  | nil => rfl
  | append_singleton items item ih =>
      rw [List.foldl_append, List.foldl_cons, List.foldl_nil, List.filter_append]
      by_cases here : key item = wanted
      · have kept : [item].filter (fun item => key item = wanted) = [item] := by simp [here]
        rw [kept, here, Dict.get?_set_self, List.getLast?_concat, Option.map_some]
      · have dropped : [item].filter (fun item => key item = wanted) = [] := by simp [here]
        rw [dropped, Dict.get?_set_ne _ _ fun same => here same.symm, ih, List.append_nil]

end Keys

/-! ## Stable sorting -/

section Sorting

variable {α : Type} {relation before : α → α → Prop} [DecidableRel relation] [Std.Total relation]
  [IsTrans α relation]

theorem pairwise_orderedInsert {item : α} {items : List α}
    (sorted : items.Pairwise fun one two => relation one two ∧ (relation two one → before one two))
    (first : ∀ other ∈ items, before item other) :
    (items.orderedInsert relation item).Pairwise fun one two =>
      relation one two ∧ (relation two one → before one two) := by
  induction items with
  | nil => exact List.pairwise_singleton _ _
  | cons head rest ih =>
      obtain ⟨below, later⟩ := List.pairwise_cons.mp sorted
      rw [List.orderedInsert]
      split
      · rename_i here
        refine List.pairwise_cons.mpr ⟨fun other member => ⟨?_, fun _ => first other member⟩, sorted⟩
        rcases List.mem_cons.mp member with rfl | inRest
        · exact here
        · exact IsTrans.trans _ _ _ here (below other inRest).1
      · rename_i after
        refine List.pairwise_cons.mpr ⟨fun other member => ?_,
          ih later fun other inRest => first other (List.mem_cons_of_mem _ inRest)⟩
        rcases (List.mem_orderedInsert relation).mp member with rfl | inRest
        · exact ⟨(Std.Total.total (r := relation) head other).resolve_right after,
            fun back => absurd back after⟩
        · exact below other inRest

/-- Sorting keeps the given order among items that the relation does not separate. -/
theorem pairwise_insertionSort_stable {items : List α} (ordered : items.Pairwise before) :
    (items.insertionSort relation).Pairwise fun one two =>
      relation one two ∧ (relation two one → before one two) := by
  induction items with
  | nil => exact List.Pairwise.nil
  | cons item rest ih =>
      obtain ⟨first, later⟩ := List.pairwise_cons.mp ordered
      refine pairwise_orderedInsert (ih later) fun other member => first other ?_
      exact (List.mem_insertionSort relation).mp member

/-- Strictly ascending lists with the same members are equal. -/
theorem eq_of_ascending {κ : Type} [Preorder κ] {one two : List κ} (first : one.Pairwise (· < ·))
    (second : two.Pairwise (· < ·)) (members : ∀ key, key ∈ one ↔ key ∈ two) : one = two := by
  have perm : one.Perm two :=
    (List.perm_ext_iff_of_nodup (first.imp ne_of_lt) (second.imp ne_of_lt)).mpr members
  refine perm.eq_of_pairwise ?_ first second
  intro left right _ _ below above
  exact absurd below (lt_asymm above)

end Sorting

end DvSpec.Library.Arrival
