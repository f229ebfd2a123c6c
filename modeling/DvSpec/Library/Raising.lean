import Mathlib.Data.List.Basic

/-!
# Loops of raising functions

What a loop over a list returns when its body may raise: the first exception, or
the collected results.
-/

namespace DvSpec.Library.Raising

variable {α β ε : Type}

@[simp]
theorem ok_bind (value : α) (next : α → Except ε β) :
    (Except.ok value >>= next) = next value := rfl

@[simp]
theorem error_bind (raised : ε) (next : α → Except ε β) :
    (Except.error raised >>= next) = .error raised := rfl

theorem bind_eq_ok_iff {first : Except ε α} {next : α → Except ε β} {result : β} :
    (first >>= next) = .ok result ↔ ∃ value, first = .ok value ∧ next value = .ok result := by
  cases first with
  | error raised =>
      constructor
      · intro returns
        cases returns
      · rintro ⟨value, raises, -⟩
        cases raises
  | ok value =>
      constructor
      · intro returns
        exact ⟨value, rfl, returns⟩
      · rintro ⟨same, equal, returns⟩
        cases equal
        exact returns

/-- A check comes before the rest. -/
theorem check_eq_ok_iff {check : Except ε Unit} {next : Unit → Except ε β} {result : β} :
    (check >>= next) = .ok result ↔ check = .ok () ∧ next () = .ok result := by
  rw [bind_eq_ok_iff]
  constructor
  · rintro ⟨_, passes, returns⟩
    exact ⟨passes, returns⟩
  · rintro ⟨passes, returns⟩
    exact ⟨(), passes, returns⟩

/-- A computed value that must equal a wanted one lets the rest run. -/
theorem require_eq_ok_iff [DecidableEq α] {first : Except ε α} {wanted : α} {raised : ε}
    {next : Except ε β} {result : β} :
    (first >>= fun value => if value ≠ wanted then .error raised else next) = .ok result ↔
      first = .ok wanted ∧ next = .ok result := by
  rw [bind_eq_ok_iff]
  constructor
  · rintro ⟨value, computed, returns⟩
    by_cases equal : value = wanted
    · rw [if_neg (not_not_intro equal)] at returns
      exact ⟨equal ▸ computed, returns⟩
    · rw [if_pos equal] at returns
      cases returns
  · rintro ⟨computed, returns⟩
    exact ⟨wanted, computed, by rw [if_neg (not_not_intro rfl), returns]⟩

/-- A loop that collects results succeeds when its body does everywhere. -/
theorem mapM_eq_ok {body : α → Except ε β} {value : α → β} {items : List α}
    (each : ∀ item ∈ items, body item = .ok (value item)) :
    items.mapM body = .ok (items.map value) := by
  induction items with
  | nil => rfl
  | cons item rest ih =>
      rw [List.mapM_cons, each item List.mem_cons_self,
        ih fun item member => each item (List.mem_cons_of_mem _ member)]
      rfl

/-- A loop that collected results met no exception. -/
theorem forall_of_mapM_eq_ok {body : α → Except ε β} {items : List α} {results : List β}
    (collected : items.mapM body = .ok results) : ∀ item ∈ items, ∃ result, body item = .ok result := by
  induction items generalizing results with
  | nil =>
      intro item member
      cases member
  | cons item rest ih =>
      rw [List.mapM_cons] at collected
      obtain ⟨first, here, remaining⟩ := bind_eq_ok_iff.mp collected
      obtain ⟨others, later, -⟩ := bind_eq_ok_iff.mp remaining
      exact List.forall_mem_cons.mpr ⟨⟨first, here⟩, ih later⟩

/-- A comprehension returns one result for each item, in order. -/
theorem mapM_eq_ok_iff {body : α → Except ε β} {items : List α} {results : List β} :
    items.mapM body = .ok results ↔
      List.Forall₂ (fun item result => body item = .ok result) items results := by
  induction items generalizing results with
  | nil =>
      constructor
      · intro none
        cases none
        exact List.Forall₂.nil
      · intro none
        cases none
        rfl
  | cons item rest ih =>
      rw [List.mapM_cons, bind_eq_ok_iff]
      constructor
      · rintro ⟨first, here, remaining⟩
        obtain ⟨others, later, collected⟩ := bind_eq_ok_iff.mp remaining
        cases collected
        exact List.Forall₂.cons here (ih.mp later)
      · intro each
        cases each with
        | cons here later =>
            exact ⟨_, here, bind_eq_ok_iff.mpr ⟨_, ih.mpr later, rfl⟩⟩

/-- Two results collected from the same items belong together in pairs. -/
theorem exists_item_of_mem_zip {γ : Type} {first : α → Except ε β} {second : α → Except ε γ} {items : List α}
    {ones : List β} {twos : List γ} (collected : items.mapM first = .ok ones)
    (alsoCollected : items.mapM second = .ok twos) :
    ∀ pair ∈ ones.zip twos, ∃ item ∈ items, first item = .ok pair.1 ∧ second item = .ok pair.2 := by
  rw [mapM_eq_ok_iff] at collected alsoCollected
  induction collected generalizing twos with
  | nil => simp
  | cons here later ih =>
      cases alsoCollected with
      | cons alsoHere alsoLater =>
          intro pair member
          rcases List.mem_cons.mp member with rfl | among
          · exact ⟨_, List.mem_cons_self, here, alsoHere⟩
          · obtain ⟨item, known, results⟩ := ih alsoLater pair among
            exact ⟨item, List.mem_cons_of_mem _ known, results⟩

/-- A loop whose body returns everywhere is a fold. -/
theorem foldlM_eq_ok {body : β → α → Except ε β} {step : β → α → β} {items : List α}
    (each : ∀ item ∈ items, ∀ state, body state item = .ok (step state item)) (state : β) :
    items.foldlM body state = .ok (items.foldl step state) := by
  induction items generalizing state with
  | nil => rfl
  | cons item rest ih =>
      obtain ⟨here, later⟩ := List.forall_mem_cons.mp each
      rw [List.foldlM_cons, here, ok_bind, ih later, List.foldl_cons]

/-- A loop whose body looks at one key of its items only is determined by the keys. -/
theorem foldlM_eq_of_map_eq {κ : Type} {body : β → α → Except ε β} {key : α → κ}
    (same : ∀ state item other, key item = key other → body state item = body state other) :
    ∀ {one two : List α}, one.map key = two.map key → ∀ state,
      one.foldlM body state = two.foldlM body state
  | [], [], _, _ => rfl
  | [], _ :: _, keys, _ => by cases keys
  | _ :: _, [], keys, _ => by cases keys
  | item :: one, other :: two, keys, state => by
      obtain ⟨here, later⟩ := List.cons.inj keys
      have rest := foldlM_eq_of_map_eq same later
      rw [List.foldlM_cons, List.foldlM_cons, same state item other here]
      exact bind_congr rest

/-- A loop of checks returns iff every check does. -/
theorem forM_eq_ok_iff {check : α → Except ε Unit} {items : List α} :
    forM items check = .ok () ↔ ∀ item ∈ items, check item = .ok () := by
  induction items with
  | nil =>
      refine ⟨fun _ item member => ?_, fun _ => rfl⟩
      cases member
  | cons item rest ih =>
      rw [List.forM_cons, bind_eq_ok_iff, List.forall_mem_cons]
      constructor
      · rintro ⟨_, here, later⟩
        exact ⟨here, ih.mp later⟩
      · rintro ⟨here, later⟩
        exact ⟨(), here, ih.mpr later⟩

/-! ## What a computation may raise -/

/-- Whatever the computation raises is of the given kind. -/
def OnlyRaises (kind : ε → Prop) (result : Except ε α) : Prop :=
  ∀ raised, result = .error raised → kind raised

namespace OnlyRaises

variable {kind : ε → Prop} {result : Except ε α}

theorem ok (value : α) : OnlyRaises kind (.ok value) := by
  intro raised refused
  cases refused

theorem error {raised : ε} (named : kind raised) :
    OnlyRaises kind (.error raised : Except ε α) := by
  intro other refused
  cases refused
  exact named

theorem bind {next : α → Except ε β} (first : OnlyRaises kind result)
    (second : ∀ value, OnlyRaises kind (next value)) : OnlyRaises kind (result >>= next) := by
  intro raised refused
  cases result with
  | error other =>
      cases refused
      exact first _ rfl
  | ok value => exact second value raised refused

end OnlyRaises

/-! ## Computations that return exactly under a condition -/

/-- A computation that returns the given value when a condition holds, and otherwise
raises an exception of the given kind. -/
structure Yields (kind : ε → Prop) (result : Except ε α) (fits : Prop) (value : α) : Prop where
  returns : fits → result = .ok value
  raises : ¬ fits → ∃ raised, result = .error raised ∧ kind raised

namespace Yields

variable {kind other : ε → Prop} {result : Except ε α} {fits : Prop} {value : α}

theorem of_ok (value : α) : Yields kind (.ok value) True value :=
  ⟨fun _ => rfl, fun never => absurd trivial never⟩

theorem of_eq_ok (returns : result = .ok value) : Yields kind result True value :=
  ⟨fun _ => returns, fun never => absurd trivial never⟩

theorem mono (yields : Yields kind result fits value) (weaken : ∀ raised, kind raised → other raised) :
    Yields other result fits value := by
  refine ⟨yields.returns, fun refused => ?_⟩
  obtain ⟨raised, equal, named⟩ := yields.raises refused
  exact ⟨raised, equal, weaken raised named⟩

theorem congr (yields : Yields kind result fits value) {condition : Prop}
    (same : fits ↔ condition) : Yields kind result condition value :=
  ⟨fun holds => yields.returns (same.mpr holds), fun refused => yields.raises fun holds =>
    refused (same.mp holds)⟩

/-- A sequence returns when both parts do. -/
theorem bind {next : α → Except ε β} {rest : Prop} {final : β}
    (first : Yields kind result fits value) (second : Yields kind (next value) rest final) :
    Yields kind (result >>= next) (fits ∧ rest) final := by
  constructor
  · rintro ⟨here, later⟩
    rw [first.returns here]
    exact second.returns later
  · intro refused
    by_cases here : fits
    · rw [first.returns here]
      exact second.raises fun later => refused ⟨here, later⟩
    · obtain ⟨raised, equal, named⟩ := first.raises here
      exact ⟨raised, by rw [equal]; rfl, named⟩

/-- A loop returns when its body does for every item; `state` is what it has reached after
the items so far. -/
theorem foldlM {body : β → α → Except ε β} {fitting : α → Prop} {state : List α → β}
    (items : List α) (each : ∀ item ∈ items, ∀ done,
      Yields kind (body (state done) item) (fitting item) (state (done ++ [item])))
    (done : List α) :
    Yields kind (items.foldlM body (state done)) (∀ item ∈ items, fitting item)
      (state (done ++ items)) := by
  induction items generalizing done with
  | nil =>
      rw [List.append_nil]
      exact (of_ok (state done)).congr (by simp)
  | cons item rest ih =>
      obtain ⟨here, others⟩ := List.forall_mem_cons.mp each
      have later := ih others (done ++ [item])
      rw [List.append_assoc, List.singleton_append] at later
      rw [List.foldlM_cons]
      exact ((here done).bind later).congr (by simp)

theorem eq_ok_iff (yields : Yields kind result fits value) {returned : α} :
    result = .ok returned ↔ fits ∧ value = returned := by
  constructor
  · intro success
    by_cases here : fits
    · rw [yields.returns here, Except.ok.injEq] at success
      exact ⟨here, success⟩
    · obtain ⟨raised, equal, -⟩ := yields.raises here
      rw [equal] at success
      cases success
  · rintro ⟨here, rfl⟩
    exact yields.returns here

end Yields

end DvSpec.Library.Raising
