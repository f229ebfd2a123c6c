import DvSpec.Crypto.Sha256
import DvSpec.Priority.Support

/-!
# When the number of supporters decides

The count weight exceeds the position one peer can give, but not the positions
that many peers give.  More supporters mean a higher score, and enough of them a
place in the result, exactly while the added positions stay below the weight of
the supporters they compete with.
-/

namespace DvSpec.Priority

open DvSpec.Encoding

/-- More supporters outscore any positions, and enough supporters are listed. -/
structure SupportDominates (sha256 : Bytes → Bytes) (msgs : List PriorityMsg)
    (minRequired : Int) : Prop where
  scores : ∀ topic one two, Proposed sha256 msgs topic one → Proposed sha256 msgs topic two →
    supporters sha256 msgs topic two < supporters sha256 msgs topic one →
      ∃ high low, calculatedScore sha256 msgs topic one = .ok high ∧
        calculatedScore sha256 msgs topic two = .ok low ∧ low < high
  listed : ∀ result, calculateResult sha256 msgs minRequired = .ok result →
    ∀ topic priority, Proposed sha256 msgs topic priority →
      (Listed sha256 result topic priority ↔
        minRequired ≤ supporters sha256 msgs topic priority)

/-- The positions given to a priority stay below the weight of its lead in supporters over
any other priority of the topic, and of its lead over the required number. -/
structure PositionsOutweighed (sha256 : Bytes → Bytes) (msgs : List PriorityMsg)
    (minRequired : Int) : Prop where
  between : ∀ topic one two, Proposed sha256 msgs topic one → Proposed sha256 msgs topic two →
    supporters sha256 msgs topic two < supporters sha256 msgs topic one →
      penalty sha256 msgs topic one < penalty sha256 msgs topic two +
        countWeight * (supporters sha256 msgs topic one - supporters sha256 msgs topic two)
  required : ∀ topic priority, Proposed sha256 msgs topic priority →
    minRequired ≤ supporters sha256 msgs topic priority →
      (penalty sha256 msgs topic priority : Int) <
        countWeight * (supporters sha256 msgs topic priority - minRequired + 1)

variable {sha256 : Bytes → Bytes}

/-- Scores compare as the supporters do when the positions are outweighed. -/
theorem supportScore_lt_iff {msgs : List PriorityMsg} {topic one two : Bytes}
    (fewer : supporters sha256 msgs topic two < supporters sha256 msgs topic one) :
    supportScore sha256 msgs topic two < supportScore sha256 msgs topic one ↔
      penalty sha256 msgs topic one < penalty sha256 msgs topic two +
        countWeight * (supporters sha256 msgs topic one - supporters sha256 msgs topic two) := by
  unfold supportScore countWeight maxPriorities
  omega

/-- Too few supporters never reach the minimum, and enough do unless their positions add up. -/
theorem minScoreOf_lt_iff {msgs : List PriorityMsg} {minRequired : Int} {topic priority : Bytes} :
    minScoreOf minRequired < supportScore sha256 msgs topic priority ↔
      minRequired ≤ supporters sha256 msgs topic priority ∧
        (penalty sha256 msgs topic priority : Int) <
          countWeight * (supporters sha256 msgs topic priority - minRequired + 1) := by
  unfold supportScore minScoreOf countWeight maxPriorities
  omega

theorem supportDominates_iff {msgs : List PriorityMsg} (accepted : Accepted sha256 msgs)
    (minRequired : Int) :
    SupportDominates sha256 msgs minRequired ↔ PositionsOutweighed sha256 msgs minRequired := by
  have returned := calculateResult_eq_ok accepted minRequired
  constructor
  · intro dominates
    constructor
    · intro topic one two proposedOne proposedTwo fewer
      obtain ⟨high, low, scoreOne, scoreTwo, above⟩ :=
        dominates.scores topic one two proposedOne proposedTwo fewer
      rw [calculatedScore_eq_ok accepted, Except.ok.injEq] at scoreOne scoreTwo
      rw [← supportScore_lt_iff fewer, scoreOne, scoreTwo]
      exact above
    · intro topic priority proposed enough
      have listed := (dominates.listed _ returned topic priority proposed).mpr enough
      exact (minScoreOf_lt_iff.mp ((listed_iff returned).mp listed).2).2
  · intro outweighed
    constructor
    · intro topic one two proposedOne proposedTwo fewer
      have below := outweighed.between topic one two proposedOne proposedTwo fewer
      exact ⟨_, _, calculatedScore_eq_ok accepted topic one, calculatedScore_eq_ok accepted topic two,
        (supportScore_lt_iff fewer).mpr below⟩
    · intro result found topic priority proposed
      rw [listed_iff found, minScoreOf_lt_iff]
      constructor
      · rintro ⟨-, enough, -⟩
        exact enough
      · intro enough
        exact ⟨proposed, enough, outweighed.required topic priority proposed enough⟩

/-- For messages that pass the validation, the number of supporters decides over positions
exactly when the positions given are outweighed. -/
theorem supportDominates_iff_positionsOutweighed {msgs : List PriorityMsg}
    (validated : validateMsgs sha256 msgs = .ok ()) (minRequired : Int) :
    SupportDominates sha256 msgs minRequired ↔ PositionsOutweighed sha256 msgs minRequired :=
  supportDominates_iff ((validateMsgs_eq_ok_iff msgs).mp validated) minRequired

/-! ## Many peers that give one priority a late position -/

/-- A first choice, and twenty more priorities. -/
def ranking (first : String) : List AnyValue :=
  .str first :: (List.range' 1 20).map fun position => .str (toString position)

/-- The first peer has another first choice than the rest. -/
def rankingMsg (peer : Nat) : PriorityMsg where
  duty := { slot := 1, type := .infoSync }
  topics := [{ topic := .str "version", priorities := ranking (if peer = 0 then "x" else "y") }]
  peerId := toString peer
  signature := []

/-- The messages of fifty peers. -/
def rankingMsgs : List PriorityMsg := (List.range 50).map rankingMsg

def rankingTopic : Bytes := keyOf Sha256.sha256 (.str "version")

/-- The last choice of every peer, and the first of all but one. -/
def lastChoice : Bytes := keyOf Sha256.sha256 (.str "20")

def firstChoice : Bytes := keyOf Sha256.sha256 (.str "y")

/-- What a message of either kind contributes. -/
theorem ranking_contributions :
    (supporters Sha256.sha256 [rankingMsg 0] rankingTopic lastChoice = 1 ∧
      penalty Sha256.sha256 [rankingMsg 0] rankingTopic lastChoice = 20) ∧
    (supporters Sha256.sha256 [rankingMsg 1] rankingTopic lastChoice = 1 ∧
      penalty Sha256.sha256 [rankingMsg 1] rankingTopic lastChoice = 20) ∧
    (supporters Sha256.sha256 [rankingMsg 0] rankingTopic firstChoice = 0 ∧
      penalty Sha256.sha256 [rankingMsg 0] rankingTopic firstChoice = 0) ∧
    (supporters Sha256.sha256 [rankingMsg 1] rankingTopic firstChoice = 1 ∧
      penalty Sha256.sha256 [rankingMsg 1] rankingTopic firstChoice = 0) ∧
    ((ranking "x").map (keyOf Sha256.sha256)).Nodup ∧
      ((ranking "y").map (keyOf Sha256.sha256)).Nodup := by
  decide +kernel

/-- What a message contributes depends on its topics only. -/
theorem contribution_congr {one two : PriorityMsg} (same : one.topics = two.topics)
    (topic priority : Bytes) :
    supporters sha256 [one] topic priority = supporters sha256 [two] topic priority ∧
      penalty sha256 [one] topic priority = penalty sha256 [two] topic priority := by
  have proposes : Proposes sha256 one topic priority ↔ Proposes sha256 two topic priority := by
    simp only [Proposes, same]
  constructor
  · simp only [supporters, List.countP_singleton, proposes]
  · simp only [penalty, proposalsFor, proposalsOf, List.flatMap_singleton, same]

theorem supporters_rankingMsgs (peers : List Nat) (topic priority : Bytes) :
    supporters sha256 (peers.map rankingMsg) topic priority =
      (peers.map fun peer =>
        if peer = 0 then supporters sha256 [rankingMsg 0] topic priority
        else supporters sha256 [rankingMsg 1] topic priority).sum := by
  induction peers with
  | nil => rfl
  | cons peer rest ih =>
      have here : supporters sha256 [rankingMsg peer] topic priority =
          if peer = 0 then supporters sha256 [rankingMsg 0] topic priority
          else supporters sha256 [rankingMsg 1] topic priority := by
        cases peer with
        | zero => rfl
        | succ peer => exact (contribution_congr rfl topic priority).1
      rw [List.map_cons, List.map_cons, List.sum_cons, ← ih, ← here, ← List.singleton_append,
        supporters, List.countP_append]
      rfl

theorem penalty_rankingMsgs (peers : List Nat) (topic priority : Bytes) :
    penalty sha256 (peers.map rankingMsg) topic priority =
      (peers.map fun peer =>
        if peer = 0 then penalty sha256 [rankingMsg 0] topic priority
        else penalty sha256 [rankingMsg 1] topic priority).sum := by
  induction peers with
  | nil => rfl
  | cons peer rest ih =>
      have here : penalty sha256 [rankingMsg peer] topic priority =
          if peer = 0 then penalty sha256 [rankingMsg 0] topic priority
          else penalty sha256 [rankingMsg 1] topic priority := by
        cases peer with
        | zero => rfl
        | succ peer => exact (contribution_congr rfl topic priority).2
      rw [List.map_cons, List.map_cons, List.sum_cons, ← ih, ← here, penalty, proposalsFor_cons,
        positionsIn_append, List.sum_append]
      rfl

/-- Every peer gives the last choice its position, and one peer leaves the first choice out. -/
theorem rankingMsgs_counts :
    supporters Sha256.sha256 rankingMsgs rankingTopic lastChoice = 50 ∧
      penalty Sha256.sha256 rankingMsgs rankingTopic lastChoice = 1000 ∧
        supporters Sha256.sha256 rankingMsgs rankingTopic firstChoice = 49 ∧
          penalty Sha256.sha256 rankingMsgs rankingTopic firstChoice = 0 := by
  obtain ⟨⟨lastOne, lastAt⟩, ⟨lastOther, lastOtherAt⟩, ⟨firstOne, firstAt⟩,
    ⟨firstOther, firstOtherAt⟩, -⟩ := ranking_contributions
  simp only [rankingMsgs, supporters_rankingMsgs, penalty_rankingMsgs, lastOne, lastAt, lastOther,
    lastOtherAt, firstOne, firstAt, firstOther, firstOtherAt]
  decide

theorem accepted_rankingMsgs : Accepted Sha256.sha256 rankingMsgs where
  nonempty := by decide
  duty := by
    intro one inOne two inTwo
    obtain ⟨_, -, rfl⟩ := List.mem_map.mp inOne
    obtain ⟨_, -, rfl⟩ := List.mem_map.mp inTwo
    rfl
  peers := by decide
  topics := by
    intro msg member
    obtain ⟨peer, -, rfl⟩ := List.mem_map.mp member
    obtain ⟨-, -, -, -, distinctX, distinctY⟩ := ranking_contributions
    have strings : ∀ first, ∀ priority ∈ ranking first, priority ≠ .unencodable := by
      intro first priority listed
      rcases List.mem_cons.mp listed with rfl | later
      · simp
      · obtain ⟨_, -, rfl⟩ := List.mem_map.mp later
        simp
    have valid : PrioritiesValid Sha256.sha256 (ranking (if peer = 0 then "x" else "y")) := by
      refine ⟨strings _, ?_, (by decide : 21 < maxPriorities)⟩
      split
      · exact distinctX
      · exact distinctY
    exact ⟨by simp [rankingMsg], List.nodup_singleton _, List.forall_mem_singleton.mpr valid⟩

theorem proposed_of_supporters {msgs : List PriorityMsg} {topic priority : Bytes}
    (some_peer : 0 < supporters sha256 msgs topic priority) :
    Proposed sha256 msgs topic priority := by
  obtain ⟨msg, member, proposes⟩ := List.countP_pos_iff.mp some_peer
  exact ⟨msg, member, of_decide_eq_true proposes⟩

/-- All fifty peers propose the last choice, and it neither outscores the first choice of 49
nor is it listed. -/
theorem rankingMsgs_not_supportDominates :
    ¬ SupportDominates Sha256.sha256 rankingMsgs 50 := by
  rw [supportDominates_iff accepted_rankingMsgs]
  intro outweighed
  obtain ⟨last, lastAt, first, firstAt⟩ := rankingMsgs_counts
  have below := outweighed.between rankingTopic lastChoice firstChoice
    (proposed_of_supporters (last ▸ by decide)) (proposed_of_supporters (first ▸ by decide))
    (by rw [last, first]; decide)
  rw [last, lastAt, first, firstAt] at below
  exact absurd below (by decide)

/-- The fifty messages pass the validation. -/
theorem supportDominates_iff_positionsOutweighed_rankingMsgs :
    SupportDominates Sha256.sha256 rankingMsgs 50 ↔
      PositionsOutweighed Sha256.sha256 rankingMsgs 50 :=
  supportDominates_iff_positionsOutweighed ((validateMsgs_eq_ok_iff _).mpr accepted_rankingMsgs) 50

end DvSpec.Priority
