import DvSpec.Consensus.Timer
import DvSpec.Library.Machine
import Mathlib.Tactic.Linarith

/-!
# Aligned round deadlines

With chain timing the memory of a timer depends on the calls only, not on the clock.
The clock cancels out of every returned timeout, and the deadline of a round is known
from the number of its calls since it was last reset.
-/

namespace DvSpec.Consensus

open DvSpec.Library

namespace DoubleEagerLinearRoundTimer

/-! ## Calls of a round -/

/-- A call forgets the deadline of a round. -/
def Call.Resets (roundNum : Int) (call : Call) : Prop :=
  call = .resetRound roundNum ∨ call = .clearAllRounds

/-- A call asks for the timeout of a round. -/
def Call.Asks (roundNum : Int) : Call → Prop
  | .calculateTimeout asked _ => asked = roundNum
  | _ => False

instance (roundNum : Int) : DecidablePred (Call.Resets roundNum) :=
  fun call => inferInstanceAs (Decidable (call = _ ∨ call = _))

instance (roundNum : Int) : DecidablePred (Call.Asks roundNum)
  | .calculateTimeout asked _ => inferInstanceAs (Decidable (asked = roundNum))
  | .resetRound _ => inferInstanceAs (Decidable False)
  | .clearAllRounds => inferInstanceAs (Decidable False)

/-- How often a round was asked for since it was last reset. -/
def asksSinceReset (roundNum : Int) (calls : List Call) : Nat :=
  (calls.reverse.takeWhile fun call => ¬ call.Resets roundNum).countP fun call =>
    call.Asks roundNum

theorem asksSinceReset_concat (roundNum : Int) (calls : List Call) (call : Call) :
    asksSinceReset roundNum (calls ++ [call]) =
      if call.Resets roundNum then 0
      else if call.Asks roundNum then asksSinceReset roundNum calls + 1
      else asksSinceReset roundNum calls := by
  unfold asksSinceReset
  rw [List.reverse_concat, List.takeWhile_cons]
  by_cases resets : call.Resets roundNum
  · simp [resets]
  · by_cases asks : call.Asks roundNum <;> simp [resets, asks]

/-! ## The memory -/

variable {duty : Duty} {genesisTime slotDuration : ℚ}

/-- The timer has its chain timing, and knows the deadlines of exactly the rounds that were
asked for since their last reset. -/
structure Remembers (duty : Duty) (genesisTime slotDuration : ℚ) (calls : List Call)
    (timer : DoubleEagerLinearRoundTimer) : Prop where
  sameDuty : timer.duty = duty
  hasGenesis : timer.genesisTime = some genesisTime
  hasSlotDuration : timer.slotDuration = some slotDuration
  deadlines : ∀ roundNum, timer.firstDeadlines.get? roundNum =
    if asksSinceReset roundNum calls = 0 then none
    else some (eagerDoubleLinearDeadline duty roundNum genesisTime slotDuration)

theorem Remembers.firstDeadline {calls : List Call} {timer : DoubleEagerLinearRoundTimer}
    (remembers : Remembers duty genesisTime slotDuration calls timer) (roundNum : Int)
    (currentTime : ℚ) :
    timer.firstDeadline roundNum currentTime =
      eagerDoubleLinearDeadline duty roundNum genesisTime slotDuration := by
  unfold DoubleEagerLinearRoundTimer.firstDeadline
  rw [remembers.hasGenesis, remembers.hasSlotDuration, remembers.sameDuty]

theorem Remembers.calculateTimeout {calls : List Call} {timer : DoubleEagerLinearRoundTimer}
    (remembers : Remembers duty genesisTime slotDuration calls timer) (roundNum : Int)
    (currentTime : ℚ) :
    Remembers duty genesisTime slotDuration (calls ++ [.calculateTimeout roundNum currentTime])
      (timer.calculateTimeout roundNum currentTime).2 := by
  have asked : ∀ other,
      asksSinceReset other (calls ++ [.calculateTimeout roundNum currentTime]) =
        if roundNum = other then asksSinceReset other calls + 1 else asksSinceReset other calls := by
    intro other
    rw [asksSinceReset_concat, if_neg (by simp [Call.Resets])]
    exact if_congr Iff.rfl rfl rfl
  have known := remembers.deadlines roundNum
  unfold DoubleEagerLinearRoundTimer.calculateTimeout
  split
  · rename_i first stored
    refine ⟨remembers.sameDuty, remembers.hasGenesis, remembers.hasSlotDuration, fun other => ?_⟩
    rw [asked]
    by_cases same : roundNum = other
    · subst same
      rw [known] at stored ⊢
      split at stored
      · cases stored
      · rename_i some_call
        rw [if_neg some_call, if_pos rfl, if_neg (Nat.succ_ne_zero _)]
    · rw [if_neg same, remembers.deadlines]
  · refine ⟨remembers.sameDuty, remembers.hasGenesis, remembers.hasSlotDuration, fun other => ?_⟩
    rw [asked]
    dsimp only
    rw [remembers.firstDeadline, Dict.get?_set]
    by_cases same : roundNum = other
    · subst same
      rw [if_pos rfl, if_pos rfl, if_neg (Nat.succ_ne_zero _)]
    · rw [if_neg fun equal => same equal.symm, if_neg same, remembers.deadlines]

theorem Remembers.resetRound {calls : List Call} {timer : DoubleEagerLinearRoundTimer}
    (remembers : Remembers duty genesisTime slotDuration calls timer) (roundNum : Int) :
    Remembers duty genesisTime slotDuration (calls ++ [.resetRound roundNum])
      (timer.resetRound roundNum) := by
  have asked : ∀ other, asksSinceReset other (calls ++ [.resetRound roundNum]) =
      if roundNum = other then 0 else asksSinceReset other calls := by
    intro other
    have silent : ¬ Call.Asks other (.resetRound roundNum) := id
    rw [asksSinceReset_concat, if_neg silent]
    exact if_congr (by simp [Call.Resets]) rfl rfl
  unfold DoubleEagerLinearRoundTimer.resetRound
  split
  · refine ⟨remembers.sameDuty, remembers.hasGenesis, remembers.hasSlotDuration, fun other => ?_⟩
    rw [asked]
    dsimp only
    rw [Dict.get?_erase]
    by_cases same : roundNum = other
    · subst same
      rw [if_pos rfl, if_pos rfl, if_pos rfl]
    · rw [if_neg fun equal => same equal.symm, if_neg same, remembers.deadlines]
  · rename_i absent
    refine ⟨remembers.sameDuty, remembers.hasGenesis, remembers.hasSlotDuration, fun other => ?_⟩
    rw [asked]
    by_cases same : roundNum = other
    · subst same
      rw [if_pos rfl, if_pos rfl]
      exact Option.not_isSome_iff_eq_none.mp absent
    · rw [if_neg same, remembers.deadlines]

theorem Remembers.clearAllRounds {calls : List Call} {timer : DoubleEagerLinearRoundTimer}
    (remembers : Remembers duty genesisTime slotDuration calls timer) :
    Remembers duty genesisTime slotDuration (calls ++ [.clearAllRounds]) timer.clearAllRounds := by
  refine ⟨remembers.sameDuty, remembers.hasGenesis, remembers.hasSlotDuration, fun other => ?_⟩
  have clears : Call.Resets other .clearAllRounds := Or.inr rfl
  rw [asksSinceReset_concat, if_pos clears, if_pos rfl]
  exact Dict.get?_empty other

/-- Every call keeps the memory. -/
theorem Remembers.step {calls : List Call} {timer : DoubleEagerLinearRoundTimer}
    (remembers : Remembers duty genesisTime slotDuration calls timer) (call : Call) :
    Remembers duty genesisTime slotDuration (calls ++ [call]) (timer.step call).2 := by
  cases call with
  | calculateTimeout roundNum currentTime => exact remembers.calculateTimeout roundNum currentTime
  | resetRound roundNum => exact remembers.resetRound roundNum
  | clearAllRounds => exact remembers.clearAllRounds

/-- The timer after some calls. -/
def after (duty : Duty) (genesisTime slotDuration : ℚ) (calls : List Call) :
    DoubleEagerLinearRoundTimer :=
  Machine.final step (new duty (some genesisTime) (some slotDuration)) calls

theorem remembers_after (duty : Duty) (genesisTime slotDuration : ℚ) (calls : List Call) :
    Remembers duty genesisTime slotDuration calls (after duty genesisTime slotDuration calls) := by
  induction calls using List.reverseRecOn with
  | nil => exact ⟨rfl, rfl, rfl, fun _ => rfl⟩
  | append_singleton calls call ih =>
      rw [after, Machine.final_append]
      exact ih.step call

/-! ## Deadlines -/

/-- The absolute deadline of a round that was asked for a number of times before. -/
def deadlineOf (duty : Duty) (genesisTime slotDuration : ℚ) (roundNum : Int) (asks : Nat) : ℚ :=
  if asks = 0 then eagerDoubleLinearDeadline duty roundNum genesisTime slotDuration
  else eagerDoubleLinearDeadline duty roundNum genesisTime slotDuration +
    eagerDoubleLinearTimeout duty.type roundNum

/-- A timer answers with the time that remains until the deadline. -/
theorem Remembers.timeout {calls : List Call} {timer : DoubleEagerLinearRoundTimer}
    (remembers : Remembers duty genesisTime slotDuration calls timer) (roundNum : Int)
    (currentTime : ℚ) :
    (timer.calculateTimeout roundNum currentTime).1 =
      deadlineOf duty genesisTime slotDuration roundNum (asksSinceReset roundNum calls) -
        currentTime := by
  have known := remembers.deadlines roundNum
  unfold DoubleEagerLinearRoundTimer.calculateTimeout deadlineOf
  by_cases first : asksSinceReset roundNum calls = 0
  · rw [if_pos first] at known
    rw [known, if_pos first]
    dsimp only
    rw [remembers.firstDeadline]
  · rw [if_neg first] at known
    rw [known, if_neg first, remembers.sameDuty]

theorem eagerDoubleLinearTimeout_lt (dutyType : DutyType) {roundNum : Int} (low : 1 ≤ roundNum) :
    eagerDoubleLinearTimeout dutyType roundNum < eagerDoubleLinearTimeout dutyType (roundNum + 1) := by
  have next : eagerDoubleLinearTimeout dutyType (roundNum + 1) = (roundNum : ℚ) + 1 := by
    have later : ¬ (dutyType = .proposer ∧ roundNum + 1 = 1) := fun first => by omega
    have positive : (1 : ℚ) ≤ ((roundNum + 1 : Int) : ℚ) := by exact_mod_cast (by omega)
    rw [eagerDoubleLinearTimeout, if_neg later, max_eq_right positive]
    push_cast
    rfl
  have positive : (1 : ℚ) ≤ (roundNum : ℚ) := by exact_mod_cast low
  rw [next, eagerDoubleLinearTimeout]
  split
  · -- the first round of a proposer takes longer, but less than the second one
    rename_i first
    rw [first.2, proposalRoundTimeout]
    norm_num
  · rw [max_eq_right positive]
    linarith

/-- Every call for a timeout returns the time to the first deadline, or to the doubled one
when the round was asked for since its last reset; so two timers agree on the absolute
deadline of equally many calls, and later rounds have later deadlines. -/
theorem calculateTimeout_aligned (duty : Duty) (genesisTime slotDuration : ℚ) :
    (∀ calls roundNum currentTime,
      ((after duty genesisTime slotDuration calls).calculateTimeout roundNum currentTime).1 =
        if asksSinceReset roundNum calls = 0 then
          eagerDoubleLinearDeadline duty roundNum genesisTime slotDuration - currentTime
        else
          eagerDoubleLinearDeadline duty roundNum genesisTime slotDuration +
            eagerDoubleLinearTimeout duty.type roundNum - currentTime) ∧
      (∀ first second roundNum now later,
        asksSinceReset roundNum first = asksSinceReset roundNum second →
          now + ((after duty genesisTime slotDuration first).calculateTimeout roundNum now).1 =
            later +
              ((after duty genesisTime slotDuration second).calculateTimeout roundNum later).1) ∧
      ∀ roundNum, 1 ≤ roundNum →
        eagerDoubleLinearDeadline duty roundNum genesisTime slotDuration <
          eagerDoubleLinearDeadline duty (roundNum + 1) genesisTime slotDuration := by
  have timeouts : ∀ calls roundNum currentTime,
      ((after duty genesisTime slotDuration calls).calculateTimeout roundNum currentTime).1 =
        deadlineOf duty genesisTime slotDuration roundNum (asksSinceReset roundNum calls) -
          currentTime :=
    fun calls => (remembers_after duty genesisTime slotDuration calls).timeout
  refine ⟨fun calls roundNum currentTime => ?_, ?_, fun roundNum low => ?_⟩
  · rw [timeouts, deadlineOf]
    split <;> rfl
  · intro first second roundNum now later same
    rw [timeouts, timeouts, same]
    linarith
  · unfold eagerDoubleLinearDeadline
    linarith [eagerDoubleLinearTimeout_lt duty.type low]

end DoubleEagerLinearRoundTimer

end DvSpec.Consensus
