import DvSpec.Dkg.Protocols
import DvSpec.Library.Raising
import Mathlib.Data.List.Nodup

/-!
# Share indices across cluster edits

Removing operators keeps the order of the others, so the new lock compacts their
ceremony indices by the number of removed operators before them.  The other edits
leave every continuing operator at its position.
-/

namespace DvSpec.Dkg

open DvSpec.Library.Raising

/-! ## Positions -/

section Positions

variable {α : Type} [DecidableEq α]

/-- The members of a list before the first occurrence of one. -/
def preceding (items : List α) (item : α) : List α := items.takeWhile fun other => other ≠ item

/-- Filtering moves a member up by the number of dropped members before it. -/
theorem idxOf_filter_add (kept : α → Bool) {items : List α} {item : α} (member : item ∈ items)
    (stays : kept item = true) :
    (items.filter kept).idxOf item + ((preceding items item).filter fun other => !kept other).length =
      items.idxOf item := by
  induction items with
  | nil => cases member
  | cons head rest ih =>
      by_cases here : head = item
      · subst here
        simp [preceding, stays]
      · have later : item ∈ rest := (List.mem_cons.mp member).resolve_left fun same => here same.symm
        have before : preceding (head :: rest) item = head :: preceding rest item := by
          simp [preceding, here]
        rw [before, List.idxOf_cons_ne _ here, ← ih later]
        by_cases keeps : kept head = true
        · rw [List.filter_cons_of_pos keeps, List.idxOf_cons_ne _ here,
            List.filter_cons_of_neg (by simp [keeps])]
          omega
        · rw [List.filter_cons_of_neg keeps, List.filter_cons_of_pos (by simp [keeps]),
            List.length_cons]
          omega

/-- Filtering keeps the order of the members that stay. -/
theorem idxOf_filter_lt (kept : α → Bool) {items : List α} {one two : α}
    (stays : kept one = true) (staysToo : kept two = true) (member : one ∈ items)
    (below : items.idxOf one < items.idxOf two) :
    (items.filter kept).idxOf one < (items.filter kept).idxOf two := by
  induction items with
  | nil => cases member
  | cons head rest ih =>
      have apart : head ≠ two := by
        rintro rfl
        rw [List.idxOf_cons_self] at below
        exact Nat.not_lt_zero _ below
      by_cases here : head = one
      · subst here
        rw [List.filter_cons_of_pos stays, List.idxOf_cons_self, List.idxOf_cons_ne _ apart]
        exact Nat.succ_pos _
      · have later : one ∈ rest := (List.mem_cons.mp member).resolve_left fun same => here same.symm
        rw [List.idxOf_cons_ne _ here, List.idxOf_cons_ne _ apart] at below
        have lower := ih later (Nat.lt_of_succ_lt_succ below)
        by_cases keeps : kept head = true
        · rw [List.filter_cons_of_pos keeps, List.idxOf_cons_ne _ here, List.idxOf_cons_ne _ apart]
          exact Nat.succ_lt_succ lower
        · rw [List.filter_cons_of_neg keeps]
          exact lower

/-- A replacement that was not in the list takes the position of what it replaces, and the
other members keep theirs. -/
theorem idxOf_set {items : List α} (old : α) {new : α} (fresh : new ∉ items) :
    (old ∈ items → (items.set (items.idxOf old) new).idxOf new = items.idxOf old) ∧
      ∀ item ∈ items, item ≠ old →
        (items.set (items.idxOf old) new).idxOf item = items.idxOf item := by
  induction items with
  | nil => exact ⟨fun absent => (by cases absent), fun _ absent => (by cases absent)⟩
  | cons head rest ih =>
      obtain ⟨notHead, notRest⟩ := not_or.mp (mt List.mem_cons.mpr fresh)
      obtain ⟨replaced, kept⟩ := ih notRest
      by_cases here : head = old
      · subst here
        rw [List.idxOf_cons_self, List.set_cons_zero]
        refine ⟨fun _ => List.idxOf_cons_self, fun item member other => ?_⟩
        have apart : new ≠ item := fun same => fresh (same ▸ member)
        rw [List.idxOf_cons_ne _ apart, List.idxOf_cons_ne _ other.symm]
      · rw [List.idxOf_cons_ne _ here, List.set_cons_succ]
        constructor
        · intro member
          have later := (List.mem_cons.mp member).resolve_left fun same => here same.symm
          rw [List.idxOf_cons_ne _ (Ne.symm notHead), replaced later]
        · intro item member other
          by_cases first : head = item
          · rw [List.idxOf_cons_eq _ first, List.idxOf_cons_eq _ first]
          · have later := (List.mem_cons.mp member).resolve_left fun same => first same.symm
            rw [List.idxOf_cons_ne _ first, List.idxOf_cons_ne _ first, kept item later other]

end Positions

/-! ## Indices -/

theorem shareIndex_eq_ok_iff {enrs : List String} {enr message : String} {index : Nat} :
    shareIndex enrs enr message = .ok index ↔ enr ∈ enrs ∧ enrs.idxOf enr + 1 = index := by
  unfold shareIndex
  split
  · rename_i unknown
    simp [unknown]
  · rename_i known
    simp [not_not.mp known]

theorem requireOperators_eq_ok_iff {operatorEnrs enrs : List String} {message : String} :
    requireOperators operatorEnrs enrs message = .ok () ↔ ∀ enr ∈ enrs, enr ∈ operatorEnrs := by
  rw [requireOperators, forM_eq_ok_iff]
  refine forall₂_congr fun enr _ => ?_
  split
  · rename_i unknown
    simp [unknown]
  · rename_i known
    simp [not_not.mp known]

/-- A removal of operators is accepted and leaves the others in order. -/
theorem removeOperatorsParticipants_eq_ok_iff {operatorEnrs removingEnrs survivors : List String} :
    removeOperatorsParticipants operatorEnrs removingEnrs = .ok survivors ↔
      (∀ enr ∈ removingEnrs, enr ∈ operatorEnrs) ∧
        operatorEnrs.filter (fun enr => enr ∉ removingEnrs) = survivors := by
  unfold removeOperatorsParticipants
  rw [bind_eq_ok_iff, ← @requireOperators_eq_ok_iff _ _ "removing ENR not found among lock operators"]
  constructor
  · rintro ⟨_, accepted, left⟩
    exact ⟨accepted, Except.ok.inj left⟩
  · rintro ⟨accepted, rfl⟩
    exact ⟨(), accepted, rfl⟩

/-- The ceremony index of an operator is its position in the participant list. -/
structure KeepsIndex (operatorEnrs participants : List String) (enr : String) : Prop where
  takesPart : enr ∈ participants
  index : ceremonyShareIndex operatorEnrs enr = .ok (participants.idxOf enr + 1)

/-- The new lock numbers the survivors of a removal without gaps, in the order of their
ceremony indices. -/
structure Compacts (operatorEnrs removingEnrs survivors : List String) : Prop where
  members : ∀ enr, enr ∈ survivors ↔ enr ∈ operatorEnrs ∧ enr ∉ removingEnrs
  range : ∀ enr ∈ survivors, ∃ index,
    newLockShareIndex survivors enr = .ok index ∧ 1 ≤ index ∧ index ≤ survivors.length
  unique : ∀ index, 1 ≤ index → index ≤ survivors.length →
    ∃! enr, enr ∈ survivors ∧ newLockShareIndex survivors enr = .ok index
  increasing : ∀ one two before after lower higher,
    ceremonyShareIndex operatorEnrs one = .ok before →
      ceremonyShareIndex operatorEnrs two = .ok after →
        newLockShareIndex survivors one = .ok lower →
          newLockShareIndex survivors two = .ok higher → before < after → lower < higher
  gap : ∀ enr ∈ survivors, ∃ before after,
    ceremonyShareIndex operatorEnrs enr = .ok before ∧
      newLockShareIndex survivors enr = .ok after ∧
        before = after + ((preceding operatorEnrs enr).filter fun other => other ∈ removingEnrs).length

variable {operatorEnrs : List String}

theorem compacts_of_remove (distinct : operatorEnrs.Nodup) {removingEnrs survivors : List String}
    (accepted : removeOperatorsParticipants operatorEnrs removingEnrs = .ok survivors) :
    Compacts operatorEnrs removingEnrs survivors := by
  obtain ⟨-, rfl⟩ := removeOperatorsParticipants_eq_ok_iff.mp accepted
  have members : ∀ enr, enr ∈ operatorEnrs.filter (fun enr => enr ∉ removingEnrs) ↔
      enr ∈ operatorEnrs ∧ enr ∉ removingEnrs := by
    intro enr
    rw [List.mem_filter, decide_eq_true_iff]
  constructor
  · exact members
  · intro enr survives
    exact ⟨_, shareIndex_eq_ok_iff.mpr ⟨survives, rfl⟩, Nat.succ_pos _,
      List.idxOf_lt_length_of_mem survives⟩
  · intro index low high
    obtain ⟨position, rfl⟩ := Nat.exists_eq_add_of_le' low
    have inside : position < (operatorEnrs.filter fun enr => enr ∉ removingEnrs).length := high
    refine ⟨_, ⟨List.getElem_mem inside, shareIndex_eq_ok_iff.mpr ⟨List.getElem_mem inside, ?_⟩⟩, ?_⟩
    · rw [(distinct.filter _).idxOf_getElem position inside]
    · rintro enr ⟨survives, indexed⟩
      have here := Nat.succ.inj (shareIndex_eq_ok_iff.mp indexed).2
      simp only [← here, List.getElem_idxOf]
  · intro one two before after lower higher ceremonyOne ceremonyTwo lockOne lockTwo below
    obtain ⟨known, rfl⟩ := shareIndex_eq_ok_iff.mp ceremonyOne
    obtain ⟨-, rfl⟩ := shareIndex_eq_ok_iff.mp ceremonyTwo
    obtain ⟨survives, rfl⟩ := shareIndex_eq_ok_iff.mp lockOne
    obtain ⟨survivesToo, rfl⟩ := shareIndex_eq_ok_iff.mp lockTwo
    exact Nat.succ_lt_succ (idxOf_filter_lt _ (List.mem_filter.mp survives).2
      (List.mem_filter.mp survivesToo).2 known (Nat.lt_of_succ_lt_succ below))
  · intro enr survives
    obtain ⟨known, stays⟩ := List.mem_filter.mp survives
    refine ⟨_, _, shareIndex_eq_ok_iff.mpr ⟨known, rfl⟩, shareIndex_eq_ok_iff.mpr ⟨survives, rfl⟩, ?_⟩
    have moved := idxOf_filter_add (fun enr => decide (enr ∉ removingEnrs)) known stays
    simp only [decide_not, Bool.not_not] at moved ⊢
    omega

/-- Removals compact the share indices; reshares, additions and replacements keep them. -/
theorem shareIndices_consistent (distinct : operatorEnrs.Nodup) :
    (∀ removingEnrs survivors,
      removeOperatorsParticipants operatorEnrs removingEnrs = .ok survivors →
        Compacts operatorEnrs removingEnrs survivors) ∧
      (∀ enr ∈ operatorEnrs, KeepsIndex operatorEnrs (reshareParticipants operatorEnrs) enr) ∧
      (∀ newEnrs, (∀ enr ∈ newEnrs, enr ∉ operatorEnrs) →
        (∀ enr ∈ operatorEnrs,
          KeepsIndex operatorEnrs (addOperatorsParticipants operatorEnrs newEnrs) enr) ∧
        (∀ position,
          (addOperatorsParticipants operatorEnrs newEnrs)[operatorEnrs.length + position]? =
            newEnrs[position]?) ∧
        ∀ enr ∈ newEnrs, (addOperatorsParticipants operatorEnrs newEnrs).idxOf enr =
          operatorEnrs.length + newEnrs.idxOf enr) ∧
      ∀ oldEnr newEnr participants, newEnr ∉ operatorEnrs →
        replaceOperatorParticipants operatorEnrs oldEnr newEnr = .ok participants →
          (∀ enr ∈ operatorEnrs, enr ≠ oldEnr → KeepsIndex operatorEnrs participants enr) ∧
          newEnr ∈ participants ∧
          ceremonyShareIndex operatorEnrs oldEnr = .ok (participants.idxOf newEnr + 1) := by
  refine ⟨fun removingEnrs survivors => compacts_of_remove distinct, ?_, ?_, ?_⟩
  · exact fun enr member => ⟨member, shareIndex_eq_ok_iff.mpr ⟨member, rfl⟩⟩
  · intro newEnrs fresh
    unfold addOperatorsParticipants
    refine ⟨fun enr member => ⟨List.mem_append_left _ member, ?_⟩, fun position => ?_,
      fun enr member => List.idxOf_append_of_notMem (fresh enr member)⟩
    · exact shareIndex_eq_ok_iff.mpr ⟨member, by rw [List.idxOf_append_of_mem member]⟩
    · rw [List.getElem?_append_right (Nat.le_add_right _ _), Nat.add_sub_cancel_left]
  · intro oldEnr newEnr participants fresh replaced
    unfold replaceOperatorParticipants at replaced
    split at replaced
    · cases replaced
    · rename_i known
      cases replaced
      have known := not_not.mp known
      obtain ⟨position, kept⟩ := idxOf_set oldEnr fresh
      have inside := List.idxOf_lt_length_of_mem known
      refine ⟨fun enr member other => ⟨?_, ?_⟩, List.mem_set inside newEnr, ?_⟩
      · rw [← List.idxOf_lt_length_iff, kept enr member other, List.length_set]
        exact List.idxOf_lt_length_of_mem member
      · exact shareIndex_eq_ok_iff.mpr ⟨member, by rw [kept enr member other]⟩
      · exact shareIndex_eq_ok_iff.mpr ⟨known, by rw [position known]⟩

/-- Four operators, of which the second and the third are removed. -/
theorem shareIndices_consistent_four :
    Compacts ["enr:a", "enr:b", "enr:c", "enr:d"] ["enr:c", "enr:b", "enr:c"] ["enr:a", "enr:d"] :=
  (shareIndices_consistent (by decide)).1 _ _ rfl

end DvSpec.Dkg
