import DvSpec.Library.Dict
import DvSpec.Library.Machine
import DvSpec.Types.Duty

/-!
# The threshold trigger

Partial signatures over one validator's duty are stored once per share index and
grouped by message root; aggregation starts when a group counts exactly
`threshold` signatures.
-/

namespace DvSpec.SigAgg

open DvSpec.Library

def signatureLength : Nat := 96

/-- One node's partial signature over one validator's duty data. -/
@[ext]
structure PartialSignature where
  shareIdx : Nat
  signature : Bytes
  messageRoot : Bytes
  one_le_shareIdx : 1 ≤ shareIdx
  length_signature : signature.length = signatureLength
  length_messageRoot : messageRoot.length = 32

instance : DecidableEq PartialSignature := fun _ _ =>
  decidable_of_iff _ PartialSignature.ext_iff.symm

/-- The default threshold `ceil(2 * nodes / 3)` of a cluster. -/
def recommendedThreshold (nodes : Nat) : Nat := (2 * nodes + 2) / 3

theorem recommendedThreshold_pos {nodes : Nat} (some_node : 1 ≤ nodes) :
    0 < recommendedThreshold nodes := by
  unfold recommendedThreshold
  omega

theorem lt_two_mul_recommendedThreshold {nodes : Nat} (some_node : 1 ≤ nodes) :
    nodes < 2 * recommendedThreshold nodes := by
  unfold recommendedThreshold
  omega

/-- Per-share deduplication: the grown list, `none` for an exact duplicate, or an error when
another signature holds the slot. -/
def storePartialSignature (stored : List PartialSignature) (incoming : PartialSignature) :
    Except PyError (Option (List PartialSignature)) :=
  match stored.find? (fun existing => existing.shareIdx = incoming.shareIdx) with
  | some existing =>
      if existing = incoming then .ok none
      else .error (.valueError
        s!"mismatching partial signed data for share_idx {incoming.shareIdx}")
  | none => .ok (some (stored ++ [incoming]))

/-- The signatures to aggregate, if some group counts exactly `threshold` of them. -/
def selectThresholdMatching (dutyType : DutyType) (sigs : List PartialSignature)
    (threshold : Nat) : Option (List PartialSignature) :=
  if sigs.length < threshold then none
  else if dutyType = .signature then
    if sigs.length = threshold then some sigs else none
  else (Dict.groupBy PartialSignature.messageRoot sigs).values.find? fun group =>
    group.length = threshold

/-! ## Storing -/

/-- The share indices that hold a signature. -/
def shares (sigs : List PartialSignature) : List Nat := sigs.map PartialSignature.shareIdx

theorem storePartialSignature_of_fresh {stored : List PartialSignature}
    {incoming : PartialSignature} (fresh : incoming.shareIdx ∉ shares stored) :
    storePartialSignature stored incoming = .ok (some (stored ++ [incoming])) := by
  have absent : stored.find? (fun existing => existing.shareIdx = incoming.shareIdx) = none := by
    rw [List.find?_eq_none]
    intro existing member same
    exact fresh (List.mem_map.mpr ⟨existing, member, of_decide_eq_true same⟩)
  rw [storePartialSignature, absent]

theorem storePartialSignature_of_taken {stored : List PartialSignature}
    {incoming : PartialSignature} (taken : incoming.shareIdx ∈ shares stored) :
    storePartialSignature stored incoming = .ok none ∨
      storePartialSignature stored incoming = .error (.valueError
        s!"mismatching partial signed data for share_idx {incoming.shareIdx}") := by
  obtain ⟨holder, member, same⟩ := List.mem_map.mp taken
  have held : (stored.find? fun existing => existing.shareIdx = incoming.shareIdx).isSome := by
    rw [List.find?_isSome]
    exact ⟨holder, member, decide_eq_true same⟩
  obtain ⟨existing, found⟩ := Option.isSome_iff_exists.mp held
  rw [storePartialSignature, found]
  by_cases equal : existing = incoming
  · exact Or.inl (if_pos equal)
  · exact Or.inr (if_neg equal)

/-! ## Selecting -/

/-- The signatures over one message root. -/
def matching (root : Bytes) (sigs : List PartialSignature) : List PartialSignature :=
  sigs.filter fun sig => sig.messageRoot = root

/-- The number of signatures over one message root. -/
def tally (root : Bytes) (sigs : List PartialSignature) : Nat :=
  sigs.countP fun sig => sig.messageRoot = root

theorem length_matching (root : Bytes) (sigs : List PartialSignature) :
    (matching root sigs).length = tally root sigs :=
  List.countP_eq_length_filter.symm

theorem tally_append (root : Bytes) (sigs more : List PartialSignature) :
    tally root (sigs ++ more) = tally root sigs + tally root more :=
  List.countP_append

theorem tally_singleton (root : Bytes) (sig : PartialSignature) :
    tally root [sig] = if sig.messageRoot = root then 1 else 0 := by
  simp [tally, List.countP_singleton]

theorem tally_le_length (root : Bytes) (sigs : List PartialSignature) :
    tally root sigs ≤ sigs.length :=
  List.countP_le_length

/-- Signatures over two different roots are counted once each. -/
theorem tally_add_tally_le {first second : Bytes} (different : first ≠ second)
    (sigs : List PartialSignature) : tally first sigs + tally second sigs ≤ sigs.length := by
  induction sigs with
  | nil => exact Nat.le_refl _
  | cons sig rest ih =>
      have split_head : ∀ root, tally root (sig :: rest) = tally root [sig] + tally root rest :=
        fun root => tally_append root [sig] rest
      rw [split_head, split_head, tally_singleton, tally_singleton, List.length_cons]
      by_cases isFirst : sig.messageRoot = first
      · have notSecond : ¬sig.messageRoot = second := fun equal => different (isFirst ▸ equal)
        rw [if_pos isFirst, if_neg notSecond]
        omega
      · rw [if_neg isFirst]
        split <;> omega

/-- A selected group is all the signatures over its root, exactly `threshold` many. -/
theorem matching_of_select {dutyType : DutyType} {sigs selection : List PartialSignature}
    {threshold : Nat} (grouped : dutyType ≠ .signature)
    (selected : selectThresholdMatching dutyType sigs threshold = some selection) :
    ∃ root, selection = matching root sigs ∧ tally root sigs = threshold := by
  unfold selectThresholdMatching at selected
  rw [if_neg grouped] at selected
  split at selected
  · cases selected
  · have member := List.mem_of_find?_eq_some selected
    have exact_size : selection.length = threshold := by
      simpa using List.find?_some selected
    obtain ⟨_, root, rfl⟩ := (Dict.mem_values_groupBy _ _ _).mp member
    exact ⟨root, rfl, (length_matching root sigs).symm.trans exact_size⟩

theorem select_signature {sigs : List PartialSignature} {threshold : Nat} :
    selectThresholdMatching .signature sigs threshold =
      if sigs.length = threshold then some sigs else none := by
  unfold selectThresholdMatching
  by_cases few : sigs.length < threshold
  · rw [if_pos few, if_neg (Nat.ne_of_lt few)]
  · rw [if_neg few, if_pos rfl]

/-- Outside `SIGNATURE` duties a selection is made iff some root counts exactly `threshold`. -/
theorem isSome_select_iff {dutyType : DutyType} {sigs : List PartialSignature} {threshold : Nat}
    (grouped : dutyType ≠ .signature) (positive : 0 < threshold) :
    (selectThresholdMatching dutyType sigs threshold).isSome ↔
      ∃ root, tally root sigs = threshold := by
  constructor
  · intro selects
    obtain ⟨selection, selected⟩ := Option.isSome_iff_exists.mp selects
    obtain ⟨root, -, counted⟩ := matching_of_select grouped selected
    exact ⟨root, counted⟩
  · rintro ⟨root, counted⟩
    have enough : ¬sigs.length < threshold := by
      have := tally_le_length root sigs
      omega
    unfold selectThresholdMatching
    rw [if_neg enough, if_neg grouped, List.find?_isSome]
    have size := (length_matching root sigs).trans counted
    have nonempty : matching root sigs ≠ [] := by
      intro empty
      rw [empty] at size
      exact Nat.ne_of_lt positive size
    exact ⟨matching root sigs, (Dict.mem_values_groupBy _ _ _).mpr ⟨nonempty, root, rfl⟩,
      decide_eq_true size⟩

/-! ## Runs -/

/-- Store one signature and, if it was stored, evaluate the trigger. -/
def deposit (dutyType : DutyType) (threshold : Nat) (stored : List PartialSignature)
    (incoming : PartialSignature) :
    Option (List PartialSignature) × List PartialSignature :=
  match storePartialSignature stored incoming with
  | .ok (some updated) => (selectThresholdMatching dutyType updated threshold, updated)
  | .ok none => (none, stored)
  | .error _ => (none, stored)

/-- The selections returned while the signatures are stored one by one. -/
def selections (dutyType : DutyType) (threshold : Nat) (stored sigs : List PartialSignature) :
    List (List PartialSignature) :=
  (Machine.outputs (deposit dutyType threshold) stored sigs).filterMap id

/-- The signatures held after storing the given ones. -/
def storedAfter (dutyType : DutyType) (threshold : Nat) (stored sigs : List PartialSignature) :
    List PartialSignature :=
  Machine.final (deposit dutyType threshold) stored sigs

/-- The signatures that find their share's slot free, in order of arrival. -/
def firstArrivals (stored : List PartialSignature) :
    List PartialSignature → List PartialSignature
  | [] => []
  | sig :: rest =>
      if sig.shareIdx ∈ shares stored then firstArrivals stored rest
      else sig :: firstArrivals (stored ++ [sig]) rest

variable {dutyType : DutyType} {threshold : Nat}

theorem deposit_of_fresh {stored : List PartialSignature} {incoming : PartialSignature}
    (fresh : incoming.shareIdx ∉ shares stored) :
    deposit dutyType threshold stored incoming =
      (selectThresholdMatching dutyType (stored ++ [incoming]) threshold,
        stored ++ [incoming]) := by
  rw [deposit, storePartialSignature_of_fresh fresh]

theorem deposit_of_taken {stored : List PartialSignature} {incoming : PartialSignature}
    (taken : incoming.shareIdx ∈ shares stored) :
    deposit dutyType threshold stored incoming = (none, stored) := by
  rcases storePartialSignature_of_taken taken with ignored | rejected
  · rw [deposit, ignored]
  · rw [deposit, rejected]

theorem storedAfter_eq (stored sigs : List PartialSignature) :
    storedAfter dutyType threshold stored sigs = stored ++ firstArrivals stored sigs := by
  induction sigs generalizing stored with
  | nil => exact (List.append_nil stored).symm
  | cons sig rest ih =>
      rw [storedAfter, Machine.final, firstArrivals]
      by_cases taken : sig.shareIdx ∈ shares stored
      · rw [deposit_of_taken taken, if_pos taken]
        exact ih stored
      · rw [deposit_of_fresh taken, if_neg taken]
        exact (ih _).trans (List.append_assoc stored [sig] _)

/-- The run's selections are those of the arrivals, stored without any check. -/
def triggers (dutyType : DutyType) (threshold : Nat) (stored : List PartialSignature) :
    List PartialSignature → List (List PartialSignature)
  | [] => []
  | sig :: rest =>
      (selectThresholdMatching dutyType (stored ++ [sig]) threshold).toList ++
        triggers dutyType threshold (stored ++ [sig]) rest

theorem selections_eq (stored sigs : List PartialSignature) :
    selections dutyType threshold stored sigs =
      triggers dutyType threshold stored (firstArrivals stored sigs) := by
  induction sigs generalizing stored with
  | nil => rfl
  | cons sig rest ih =>
      rw [selections, Machine.outputs, firstArrivals]
      by_cases taken : sig.shareIdx ∈ shares stored
      · rw [deposit_of_taken taken, if_pos taken]
        exact ih stored
      · rw [deposit_of_fresh taken, if_neg taken, triggers, ← ih]
        cases selectThresholdMatching dutyType (stored ++ [sig]) threshold <;> rfl

end DvSpec.SigAgg
