import DvSpec.Encoding.Ssz

/-!
# QBFT messages

A constructed `QBFTMsg` carries what its field validators guarantee.  Every
validator answers with the message of the error it raises, or with nothing.
-/

namespace DvSpec.Consensus

open DvSpec.Encoding

/-- QBFT message types. -/
inductive MsgType where
  | prePrepare
  | prepare
  | commit
  | roundChange
  | decided
  deriving DecidableEq, Repr

/-- The integer value of the enumeration. -/
def MsgType.toNat : MsgType → Nat
  | .prePrepare => 1
  | .prepare => 2
  | .commit => 3
  | .roundChange => 4
  | .decided => 5

/-- The hash `b"\x00" * 32` that stands for no prepared value. -/
def zeroHash : Bytes := List.replicate 32 0

@[simp]
theorem length_zeroHash : zeroHash.length = 32 := rfl

/-- A message in the QBFT consensus protocol. -/
structure QBFTMsg where
  type : MsgType
  duty : Duty
  peerIdx : Nat
  round : Nat
  preparedRound : Nat := 0
  signature : Option Bytes := none
  valueHash : Option Bytes := none
  preparedValueHash : Bytes := zeroHash
  round_pos : 1 ≤ round := by decide
  preparedRound_le : preparedRound ≤ round := by decide
  length_valueHash : ∀ hash ∈ valueHash, hash.length = 32 := by decide
  length_preparedValueHash : preparedValueHash.length = 32 := by decide
  deriving DecidableEq

/-- A consensus message containing a QBFT message and its justifications. -/
structure QBFTConsensusMsg where
  msg : QBFTMsg
  justification : List QBFTMsg := []
  values : List Bytes := []
  deriving DecidableEq

/-! ## Field validators -/

def validatePeerIdx (v : Int) : Option String :=
  if v < 0 then some "peer_idx must be >= 0" else none

def validateRound (v : Int) : Option String :=
  if v < 1 then some "round must be >= 1" else none

/-- `currentRound` is the validated round, when there is one. -/
def validatePreparedRound (v : Int) (currentRound : Option Int) : Option String :=
  if v < 0 then some "prepared_round must be >= 0"
  else match currentRound with
    | none => none
    | some current =>
        if v > current then
          some s!"prepared_round ({v}) must be <= current round ({current})"
        else none

def validateSignature (v : Option Bytes) : Option String :=
  match v with
  | none => none
  | some bytes => if bytes.length ≠ 65 then some "signature must be 65 bytes" else none

def validateValueHash (v : Option Bytes) : Option String :=
  match v with
  | none => none
  | some bytes => if bytes.length ≠ 32 then some "value_hash must be 32 bytes" else none

/-- `preparedRound` is the validated prepared round, when there is one. -/
def validatePreparedValueHash (v : Bytes) (preparedRound : Option Int) : Option String :=
  if v.length ≠ 32 then some "prepared_value_hash must be 32 bytes"
  else match preparedRound with
    | none => none
    | some prepared =>
        if prepared = 0 ∧ v ≠ zeroHash then
          some "prepared_value_hash must be zero hash when prepared_round is 0"
        else if prepared > 0 ∧ v = zeroHash then
          some "prepared_value_hash must be non-zero when prepared_round > 0"
        else none

/-- A validated value, visible to the validators of later fields. -/
def validated (v : Int) (error : Option String) : Option Int :=
  if error = none then some v else none

/-- One line of a validation error. -/
def fieldError (field : String) (error : Option String) : List (String × String) :=
  match error with
  | none => []
  | some message => [(field, message)]

/-- The errors of `QBFTMsg(...)` with every field supplied, in declaration order. -/
def QBFTMsg.errors (peerIdx round preparedRound : Int) (signature valueHash : Option Bytes)
    (preparedValueHash : Bytes) : List (String × String) :=
  let roundError := validateRound round
  let preparedRoundError := validatePreparedRound preparedRound (validated round roundError)
  fieldError "peer_idx" (validatePeerIdx peerIdx) ++
    fieldError "round" roundError ++
    fieldError "prepared_round" preparedRoundError ++
    fieldError "signature" (validateSignature signature) ++
    fieldError "value_hash" (validateValueHash valueHash) ++
    fieldError "prepared_value_hash"
      (validatePreparedValueHash preparedValueHash (validated preparedRound preparedRoundError))

theorem fieldError_eq_nil_iff (field : String) (error : Option String) :
    fieldError field error = [] ↔ error = none := by
  cases error <;> simp [fieldError]

/-- Construction succeeds exactly on these arguments. -/
theorem QBFTMsg.errors_eq_nil_iff (peerIdx round preparedRound : Nat)
    (signature valueHash : Option Bytes) (preparedValueHash : Bytes) :
    QBFTMsg.errors peerIdx round preparedRound signature valueHash preparedValueHash = [] ↔
      1 ≤ round ∧ preparedRound ≤ round ∧ (∀ bytes ∈ signature, bytes.length = 65) ∧
        (∀ hash ∈ valueHash, hash.length = 32) ∧ preparedValueHash.length = 32 ∧
        (preparedRound = 0 ↔ preparedValueHash = zeroHash) := by
  have peer : validatePeerIdx peerIdx = none := by simp [validatePeerIdx]
  have roundOk : validateRound round = none ↔ 1 ≤ round := by
    simp only [validateRound, ite_eq_right_iff, reduceCtorEq, imp_false]
    omega
  have signatureOk : validateSignature signature = none ↔
      ∀ bytes ∈ signature, bytes.length = 65 := by
    cases signature <;> simp [validateSignature]
  have valueOk : validateValueHash valueHash = none ↔ ∀ hash ∈ valueHash, hash.length = 32 := by
    cases valueHash <;> simp [validateValueHash]
  simp only [QBFTMsg.errors, List.append_eq_nil_iff, fieldError_eq_nil_iff, peer, roundOk,
    signatureOk, valueOk, true_and, and_assoc]
  apply and_congr_right
  intro positive
  have preparedOk : validatePreparedRound preparedRound
      (validated round (validateRound round)) = none ↔ preparedRound ≤ round := by
    have natural : ¬ ((preparedRound : Int) < 0) := by omega
    simp [validatePreparedRound, validated, roundOk.mpr positive, natural]
  rw [preparedOk]
  refine and_congr_right fun bounded => and_congr_right fun _ => and_congr_right fun _ => ?_
  rw [preparedOk.mpr bounded]
  by_cases sized : preparedValueHash.length = 32
  · by_cases zero : preparedValueHash = zeroHash
    · simp [validatePreparedValueHash, validated, zero, Nat.pos_iff_ne_zero]
    · simp [validatePreparedValueHash, validated, sized, zero]
  · simp [validatePreparedValueHash, sized]

/-- `QBFTMsg(...)` with every field supplied. -/
def QBFTMsg.construct (type : MsgType) (duty : Duty) (peerIdx round preparedRound : Nat)
    (signature valueHash : Option Bytes) (preparedValueHash : Bytes) : Except PyError QBFTMsg :=
  if valid : QBFTMsg.errors peerIdx round preparedRound signature valueHash
      preparedValueHash = [] then
    have checked := (QBFTMsg.errors_eq_nil_iff peerIdx round preparedRound signature valueHash
      preparedValueHash).mp valid
    .ok {
      type, duty, peerIdx, round, preparedRound, signature, valueHash, preparedValueHash
      round_pos := checked.1
      preparedRound_le := checked.2.1
      length_valueHash := checked.2.2.2.1
      length_preparedValueHash := checked.2.2.2.2.1 }
  else .error (.validationError
    (QBFTMsg.errors peerIdx round preparedRound signature valueHash preparedValueHash))

/-- Bound the justification and value counts of a consensus message. -/
def verifyMsgLimits (consensusMsg : QBFTConsensusMsg) (nodes : Nat) : Except PyError Unit :=
  let maxJustifications := 2 * nodes
  let justifications := consensusMsg.justification.length
  if justifications > maxJustifications then
    .error (.valueError
      s!"too many justifications: {justifications} (max {maxJustifications})")
  else
    let maxValues := 2 * (justifications + 1)
    let values := consensusMsg.values.length
    if values > maxValues then
      .error (.valueError s!"too many values: {values} (max {maxValues})")
    else .ok ()

theorem verifyMsgLimits_eq_ok_iff {consensusMsg : QBFTConsensusMsg} {nodes : Nat} :
    verifyMsgLimits consensusMsg nodes = .ok () ↔
      consensusMsg.justification.length ≤ 2 * nodes ∧
        consensusMsg.values.length ≤ 2 * (consensusMsg.justification.length + 1) := by
  unfold verifyMsgLimits
  by_cases justifications : consensusMsg.justification.length ≤ 2 * nodes
  · by_cases values :
        consensusMsg.values.length ≤ 2 * (consensusMsg.justification.length + 1) <;>
      simp [Nat.not_lt.mpr, justifications, values]
  · simp [Nat.not_le.mp justifications, justifications]

end DvSpec.Consensus
