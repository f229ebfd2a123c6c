import DvSpec.Library.Dict
import DvSpec.Types.Duty
import Mathlib.Algebra.Order.Ring.Rat

/-!
# The eager double linear round timer

Times are exact numbers of seconds.  A timer with chain timing derives the first
deadline of a round from the slot of its duty, remembers it, and extends it by the base
timeout whenever the round is asked for again.
-/

namespace DvSpec.Consensus

open DvSpec.Library

/-- Round 1 timeout for proposer duties, in seconds. -/
def proposalRoundTimeout : ℚ := 3 / 2

def nanosecondsPerSecond : Int := 1000000000

/-- `int(value)`: the integer part. -/
def integerPart (value : ℚ) : Int := value.num.tdiv value.den

/-- The delay from slot start to when a duty is scheduled to begin. -/
def getDutyStartDelayNanos (dutyType : DutyType) (slotDurationNanos : Int) : Int :=
  if dutyType = .attester then slotDurationNanos.fdiv 3
  else if dutyType = .aggregator ∨ dutyType = .syncContribution then
    (2 * slotDurationNanos).fdiv 3
  else 0

/-- The same delay in seconds. -/
def getDutyStartDelay (dutyType : DutyType) (slotDuration : ℚ) : ℚ :=
  let nanos := getDutyStartDelayNanos dutyType (integerPart (slotDuration * nanosecondsPerSecond))
  nanos / nanosecondsPerSecond

/-- The base timeout of a round. -/
def eagerDoubleLinearTimeout (dutyType : DutyType) (roundNum : Int) : ℚ :=
  if dutyType = .proposer ∧ roundNum = 1 then proposalRoundTimeout else max 1 roundNum

/-- The absolute time at which a round first expires. -/
def eagerDoubleLinearDeadline (duty : Duty) (roundNum : Int) (genesisTime slotDuration : ℚ) : ℚ :=
  let slotStart := genesisTime + slotDuration * duty.slot
  let dutyStart := slotStart + getDutyStartDelay duty.type slotDuration
  dutyStart + eagerDoubleLinearTimeout duty.type roundNum

/-- A timer with the first deadline of every round that was asked for. -/
structure DoubleEagerLinearRoundTimer where
  duty : Duty
  genesisTime : Option ℚ
  slotDuration : Option ℚ
  firstDeadlines : Dict Int ℚ

namespace DoubleEagerLinearRoundTimer

/-- A timer with a duty and optional chain timing information. -/
def new (duty : Duty) (genesisTime slotDuration : Option ℚ) : DoubleEagerLinearRoundTimer where
  duty
  genesisTime
  slotDuration
  firstDeadlines := Dict.empty

/-- The first deadline of a round: derived from the slot of the duty, or from the local
clock when there is no chain timing. -/
def firstDeadline (timer : DoubleEagerLinearRoundTimer) (roundNum : Int) (currentTime : ℚ) : ℚ :=
  match timer.genesisTime, timer.slotDuration with
  | some genesisTime, some slotDuration =>
      eagerDoubleLinearDeadline timer.duty roundNum genesisTime slotDuration
  | _, _ => currentTime + eagerDoubleLinearTimeout timer.duty.type roundNum

/-- The remaining duration until the deadline of a round, where the clock shows
`currentTime`. -/
def calculateTimeout (timer : DoubleEagerLinearRoundTimer) (roundNum : Int) (currentTime : ℚ) :
    ℚ × DoubleEagerLinearRoundTimer :=
  match timer.firstDeadlines.get? roundNum with
  | some first =>
      (first + eagerDoubleLinearTimeout timer.duty.type roundNum - currentTime, timer)
  | none =>
      let deadline := timer.firstDeadline roundNum currentTime
      (deadline - currentTime,
        { timer with firstDeadlines := timer.firstDeadlines.set roundNum deadline })

/-- Reset the timeout tracking for a specific round. -/
def resetRound (timer : DoubleEagerLinearRoundTimer) (roundNum : Int) :
    DoubleEagerLinearRoundTimer :=
  if timer.firstDeadlines.contains roundNum then
    { timer with firstDeadlines := timer.firstDeadlines.erase roundNum }
  else timer

/-- Clear all round timeout tracking. -/
def clearAllRounds (timer : DoubleEagerLinearRoundTimer) : DoubleEagerLinearRoundTimer :=
  { timer with firstDeadlines := Dict.empty }

/-- A call of a method, with what the clock shows where it is read. -/
inductive Call where
  | calculateTimeout (roundNum : Int) (currentTime : ℚ)
  | resetRound (roundNum : Int)
  | clearAllRounds
  deriving DecidableEq

/-- One call, with the timeout that it returns. -/
def step (timer : DoubleEagerLinearRoundTimer) : Call → Option ℚ × DoubleEagerLinearRoundTimer
  | .calculateTimeout roundNum currentTime =>
      let answer := timer.calculateTimeout roundNum currentTime
      (some answer.1, answer.2)
  | .resetRound roundNum => (none, timer.resetRound roundNum)
  | .clearAllRounds => (none, timer.clearAllRounds)

end DoubleEagerLinearRoundTimer

end DvSpec.Consensus
