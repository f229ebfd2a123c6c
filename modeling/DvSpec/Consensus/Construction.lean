import DvSpec.Consensus.Message
import DvSpec.Library.Fields

/-!
# Constructing a message from some of its fields

The two prepared fields are checked against each other only where the hash is
supplied.  A message with a prepared round but no hash is constructed.
-/

namespace DvSpec.Consensus

open DvSpec.Encoding DvSpec.Library.Fields DvSpec.Library.Raising

/-- The arguments of `QBFTMsg(...)`. -/
structure QBFTMsgArguments where
  type : Argument MsgType := .omitted
  duty : Argument Duty := .omitted
  peerIdx : Argument Int := .omitted
  round : Argument Int := .omitted
  preparedRound : Argument Int := .omitted
  signature : Argument (Option Bytes) := .omitted
  valueHash : Argument (Option Bytes) := .omitted
  preparedValueHash : Argument Bytes := .omitted

/-- The fields of a constructed message. -/
@[ext]
structure QBFTMsgFields where
  type : MsgType
  duty : Duty
  peerIdx : Int
  round : Int
  preparedRound : Int
  signature : Option Bytes
  valueHash : Option Bytes
  preparedValueHash : Bytes
  deriving DecidableEq

/-- What the rules for the fields promise. -/
structure QBFTMsgFields.WellFormed (fields : QBFTMsgFields) : Prop where
  round_pos : 1 ≤ fields.round
  peerIdx_nonneg : 0 ≤ fields.peerIdx
  preparedRound_nonneg : 0 ≤ fields.preparedRound
  preparedRound_le : fields.preparedRound ≤ fields.round
  length_preparedValueHash : fields.preparedValueHash.length = 32
  prepared : fields.preparedRound = 0 ↔ fields.preparedValueHash = zeroHash

/-! ## The fields in declaration order -/

namespace QBFTMsgArguments

variable (seesDefaults : Bool) (arguments : QBFTMsgArguments)

def checkedType : Except String MsgType := required (fun _ => none) arguments.type

def checkedDuty : Except String Duty := required (fun _ => none) arguments.duty

def checkedPeerIdx : Except String Int := required validatePeerIdx arguments.peerIdx

def checkedRound : Except String Int := required validateRound arguments.round

def checkedPreparedRound : Except String Int :=
  defaulted 0
    (fun v => validatePreparedRound v
      (earlier seesDefaults arguments.round arguments.checkedRound))
    arguments.preparedRound

def checkedSignature : Except String (Option Bytes) :=
  defaulted none validateSignature arguments.signature

def checkedValueHash : Except String (Option Bytes) :=
  defaulted none validateValueHash arguments.valueHash

def checkedPreparedValueHash : Except String Bytes :=
  defaulted zeroHash
    (fun v => validatePreparedValueHash v
      (earlier seesDefaults arguments.preparedRound (arguments.checkedPreparedRound seesDefaults)))
    arguments.preparedValueHash

/-- The fields, when all of them pass. -/
def fields : Except String QBFTMsgFields := do
  let type ← arguments.checkedType
  let duty ← arguments.checkedDuty
  let peerIdx ← arguments.checkedPeerIdx
  let round ← arguments.checkedRound
  let preparedRound ← arguments.checkedPreparedRound seesDefaults
  let signature ← arguments.checkedSignature
  let valueHash ← arguments.checkedValueHash
  let preparedValueHash ← arguments.checkedPreparedValueHash seesDefaults
  return { type, duty, peerIdx, round, preparedRound, signature, valueHash, preparedValueHash }

/-- The lines of the validation error, one for every refused field. -/
def errors : List (String × String) :=
  fieldError "type" (refusal arguments.checkedType) ++
    fieldError "duty" (refusal arguments.checkedDuty) ++
    fieldError "peer_idx" (refusal arguments.checkedPeerIdx) ++
    fieldError "round" (refusal arguments.checkedRound) ++
    fieldError "prepared_round" (refusal (arguments.checkedPreparedRound seesDefaults)) ++
    fieldError "signature" (refusal arguments.checkedSignature) ++
    fieldError "value_hash" (refusal arguments.checkedValueHash) ++
    fieldError "prepared_value_hash" (refusal (arguments.checkedPreparedValueHash seesDefaults))

/-- `QBFTMsg(...)` with the given arguments. -/
def construct : Except PyError QBFTMsgFields :=
  match arguments.fields seesDefaults with
  | .ok fields => .ok fields
  | .error _ => .error (.validationError (arguments.errors seesDefaults))

variable {seesDefaults} {arguments} {fields : QBFTMsgFields}

theorem construct_eq_ok_iff :
    arguments.construct seesDefaults = .ok fields ↔
      arguments.checkedType = .ok fields.type ∧ arguments.checkedDuty = .ok fields.duty ∧
        arguments.checkedPeerIdx = .ok fields.peerIdx ∧
        arguments.checkedRound = .ok fields.round ∧
        arguments.checkedPreparedRound seesDefaults = .ok fields.preparedRound ∧
        arguments.checkedSignature = .ok fields.signature ∧
        arguments.checkedValueHash = .ok fields.valueHash ∧
        arguments.checkedPreparedValueHash seesDefaults = .ok fields.preparedValueHash := by
  have returns : arguments.construct seesDefaults = .ok fields ↔
      arguments.fields seesDefaults = .ok fields := by
    unfold construct
    cases arguments.fields seesDefaults <;> simp
  rw [returns]
  unfold QBFTMsgArguments.fields
  simp only [bind_eq_ok_iff]
  constructor
  · rintro ⟨_, type, _, duty, _, peer, _, round, _, prepared, _, signature, _, value, _, hash, built⟩
    cases built
    exact ⟨type, duty, peer, round, prepared, signature, value, hash⟩
  · rintro ⟨type, duty, peer, round, prepared, signature, value, hash⟩
    exact ⟨_, type, _, duty, _, peer, _, round, _, prepared, _, signature, _, value, _, hash, rfl⟩

/-- A refused construction names at least one field. -/
theorem errors_eq_nil_iff :
    arguments.errors seesDefaults = [] ↔ ∃ fields, arguments.construct seesDefaults = .ok fields := by
  simp only [errors, List.append_eq_nil_iff, fieldError_eq_nil_iff, refusal_eq_none_iff,
    construct_eq_ok_iff, and_assoc]
  constructor
  · rintro ⟨⟨type, checkedType⟩, ⟨duty, checkedDuty⟩, ⟨peerIdx, checkedPeer⟩,
      ⟨round, checkedRound⟩, ⟨preparedRound, checkedPrepared⟩, ⟨signature, checkedSignature⟩,
      ⟨valueHash, checkedValue⟩, preparedValueHash, checkedHash⟩
    exact ⟨{ type, duty, peerIdx, round, preparedRound, signature, valueHash, preparedValueHash },
      checkedType, checkedDuty, checkedPeer, checkedRound, checkedPrepared, checkedSignature,
      checkedValue, checkedHash⟩
  · rintro ⟨fields, type, duty, peer, round, prepared, signature, value, hash⟩
    exact ⟨⟨_, type⟩, ⟨_, duty⟩, ⟨_, peer⟩, ⟨_, round⟩, ⟨_, prepared⟩, ⟨_, signature⟩,
      ⟨_, value⟩, _, hash⟩

theorem construct_eq_error (refused : arguments.errors seesDefaults ≠ []) :
    arguments.construct seesDefaults =
      .error (.validationError (arguments.errors seesDefaults)) := by
  cases constructed : arguments.construct seesDefaults with
  | ok fields => exact absurd (errors_eq_nil_iff.mpr ⟨fields, constructed⟩) refused
  | error error =>
      unfold construct at constructed
      split at constructed
      · cases constructed
      · exact constructed.symm

end QBFTMsgArguments

/-! ## All fields supplied -/

/-- The fields of a message. -/
def QBFTMsg.fields (msg : QBFTMsg) : QBFTMsgFields where
  type := msg.type
  duty := msg.duty
  peerIdx := msg.peerIdx
  round := msg.round
  preparedRound := msg.preparedRound
  signature := msg.signature
  valueHash := msg.valueHash
  preparedValueHash := msg.preparedValueHash

/-- The arguments that supply every field. -/
def QBFTMsgFields.arguments (fields : QBFTMsgFields) : QBFTMsgArguments where
  type := .supplied fields.type
  duty := .supplied fields.duty
  peerIdx := .supplied fields.peerIdx
  round := .supplied fields.round
  preparedRound := .supplied fields.preparedRound
  signature := .supplied fields.signature
  valueHash := .supplied fields.valueHash
  preparedValueHash := .supplied fields.preparedValueHash

theorem toOption_checked (check : Int → Option String) (value : Int) :
    (checked check value).toOption = validated value (check value) := by
  unfold checked validated
  cases check value <;> rfl

/-- With every field supplied the errors are those of the message. -/
theorem QBFTMsgFields.errors_arguments (fields : QBFTMsgFields) (seesDefaults : Bool) :
    fields.arguments.errors seesDefaults =
      QBFTMsg.errors fields.peerIdx fields.round fields.preparedRound fields.signature
        fields.valueHash fields.preparedValueHash := by
  simp [QBFTMsgArguments.errors, QBFTMsg.errors, arguments, QBFTMsgArguments.checkedType,
    QBFTMsgArguments.checkedDuty, QBFTMsgArguments.checkedPeerIdx, QBFTMsgArguments.checkedRound,
    QBFTMsgArguments.checkedPreparedRound, QBFTMsgArguments.checkedSignature,
    QBFTMsgArguments.checkedValueHash, QBFTMsgArguments.checkedPreparedValueHash, required,
    defaulted, earlier, toOption_checked, fieldError]

/-- With every field supplied the given fields are built, when there are no errors. -/
theorem QBFTMsgFields.construct_arguments_eq_ok_iff {fields built : QBFTMsgFields}
    {seesDefaults : Bool} :
    fields.arguments.construct seesDefaults = .ok built ↔
      fields = built ∧ QBFTMsg.errors fields.peerIdx fields.round fields.preparedRound
        fields.signature fields.valueHash fields.preparedValueHash = [] := by
  have returned : ∀ {built : QBFTMsgFields},
      fields.arguments.construct seesDefaults = .ok built → fields = built := by
    intro built constructed
    have parts := QBFTMsgArguments.construct_eq_ok_iff.mp constructed
    simp only [arguments, QBFTMsgArguments.checkedType, QBFTMsgArguments.checkedDuty,
      QBFTMsgArguments.checkedPeerIdx, QBFTMsgArguments.checkedRound,
      QBFTMsgArguments.checkedPreparedRound, QBFTMsgArguments.checkedSignature,
      QBFTMsgArguments.checkedValueHash, QBFTMsgArguments.checkedPreparedValueHash, required,
      defaulted, checked_eq_ok_iff] at parts
    obtain ⟨type, duty, peer, round, prepared, signature, value, hash⟩ := parts
    exact QBFTMsgFields.ext type.1 duty.1 peer.1 round.1 prepared.1 signature.1 value.1 hash.1
  rw [← fields.errors_arguments seesDefaults, QBFTMsgArguments.errors_eq_nil_iff]
  constructor
  · intro constructed
    exact ⟨returned constructed, built, constructed⟩
  · rintro ⟨rfl, other, constructed⟩
    have same := returned constructed
    rwa [← same] at constructed

/-- With every field supplied the call builds the message or raises its errors. -/
theorem QBFTMsg.construct_arguments (type : MsgType) (duty : Duty)
    (peerIdx round preparedRound : Nat) (signature valueHash : Option Bytes)
    (preparedValueHash : Bytes) (seesDefaults : Bool) :
    (QBFTMsgFields.arguments
        ⟨type, duty, peerIdx, round, preparedRound, signature, valueHash,
          preparedValueHash⟩).construct seesDefaults =
      (QBFTMsg.construct type duty peerIdx round preparedRound signature valueHash
        preparedValueHash).map QBFTMsg.fields := by
  unfold QBFTMsg.construct
  split
  · rename_i none
    exact QBFTMsgFields.construct_arguments_eq_ok_iff.mpr ⟨rfl, none⟩
  · rename_i some
    rw [← QBFTMsgFields.errors_arguments
      ⟨type, duty, peerIdx, round, preparedRound, signature, valueHash, preparedValueHash⟩
      seesDefaults] at some ⊢
    exact QBFTMsgArguments.construct_eq_error some

/-! ## What the checks guarantee -/

theorem validatePreparedRound_eq_none_iff {v : Int} {currentRound : Option Int} :
    validatePreparedRound v currentRound = none ↔
      0 ≤ v ∧ ∀ current ∈ currentRound, v ≤ current := by
  unfold validatePreparedRound
  cases currentRound with
  | none => simp
  | some current =>
      by_cases negative : v < 0
      · simp [negative, Int.not_le.mpr negative]
      · by_cases above : current < v
        · simp [negative, above]
        · simp [negative, above, Int.not_lt.mp negative, Int.not_lt.mp above]

theorem validatePreparedValueHash_eq_none_iff {v : Bytes} {preparedRound : Option Int} :
    validatePreparedValueHash v preparedRound = none ↔
      v.length = 32 ∧ ∀ prepared ∈ preparedRound,
        (prepared = 0 → v = zeroHash) ∧ (0 < prepared → v ≠ zeroHash) := by
  unfold validatePreparedValueHash
  by_cases sized : v.length = 32
  · cases preparedRound with
    | none => simp [sized]
    | some prepared =>
        by_cases zero : v = zeroHash <;> simp [sized, zero]
  · simp [sized]

/-- The two prepared fields are supplied together, or what is supplied equals the default
of what is not. -/
structure QBFTMsgArguments.PreparedTogether (arguments : QBFTMsgArguments) : Prop where
  round : arguments.preparedValueHash = .omitted →
    arguments.preparedRound = .omitted ∨ arguments.preparedRound = .supplied 0
  hash : arguments.preparedRound = .omitted →
    arguments.preparedValueHash = .omitted ∨ arguments.preparedValueHash = .supplied zeroHash

namespace QBFTMsgArguments

variable {seesDefaults : Bool} {arguments : QBFTMsgArguments} {fields : QBFTMsgFields}

/-- What a construction guarantees on its own. -/
theorem bounds_of_construct (constructed : arguments.construct seesDefaults = .ok fields) :
    1 ≤ fields.round ∧ 0 ≤ fields.peerIdx ∧ 0 ≤ fields.preparedRound ∧
      fields.preparedRound ≤ fields.round ∧ fields.preparedValueHash.length = 32 := by
  obtain ⟨-, -, peer, round, prepared, -, -, hash⟩ := construct_eq_ok_iff.mp constructed
  obtain ⟨-, peerOk⟩ := required_eq_ok_iff.mp peer
  obtain ⟨suppliedRound, roundOk⟩ := required_eq_ok_iff.mp round
  have positive : 1 ≤ fields.round := by
    by_contra low
    rw [validateRound, if_pos (Int.not_le.mp low)] at roundOk
    cases roundOk
  have natural : 0 ≤ fields.peerIdx := by
    by_contra low
    rw [validatePeerIdx, if_pos (Int.not_le.mp low)] at peerOk
    cases peerOk
  refine ⟨positive, natural, ?_⟩
  rw [← and_assoc]
  constructor
  · rcases defaulted_eq_ok_iff.mp prepared with ⟨-, zero⟩ | ⟨-, passes⟩
    · rw [← zero]
      exact ⟨Int.le_refl 0, Int.le_trans Int.one_nonneg positive⟩
    · obtain ⟨nonneg, below⟩ := validatePreparedRound_eq_none_iff.mp passes
      refine ⟨nonneg, below fields.round ?_⟩
      rw [suppliedRound, round]
      rfl
  · rcases defaulted_eq_ok_iff.mp hash with ⟨-, zero⟩ | ⟨-, passes⟩
    · rw [← zero]
      exact length_zeroHash
    · exact (validatePreparedValueHash_eq_none_iff.mp passes).1

/-- The prepared fields of a constructed message agree exactly when they were supplied
together. -/
theorem prepared_iff (constructed : arguments.construct seesDefaults = .ok fields) :
    (fields.preparedRound = 0 ↔ fields.preparedValueHash = zeroHash) ↔
      arguments.PreparedTogether := by
  obtain ⟨-, -, nonneg, -, -⟩ := bounds_of_construct constructed
  obtain ⟨-, -, -, -, prepared, -, -, hash⟩ := construct_eq_ok_iff.mp constructed
  rcases defaulted_eq_ok_iff.mp prepared with ⟨noRound, zeroRound⟩ | ⟨round, -⟩
  · rcases defaulted_eq_ok_iff.mp hash with ⟨noHash, zero⟩ | ⟨given, -⟩
    · refine iff_of_true ?_ ⟨fun _ => Or.inl noRound, fun _ => Or.inl noHash⟩
      rw [← zeroRound, ← zero]
      exact iff_of_true rfl rfl
    · rw [← zeroRound]
      constructor
      · intro agree
        refine ⟨fun _ => Or.inl noRound, fun _ => Or.inr ?_⟩
        rw [given, agree.mp rfl]
      · intro together
        rcases together.hash noRound with absent | zero
        · rw [given] at absent
          cases absent
        · rw [given, Argument.supplied.injEq] at zero
          exact iff_of_true rfl zero
  · rcases defaulted_eq_ok_iff.mp hash with ⟨noHash, zero⟩ | ⟨given, passes⟩
    · rw [← zero]
      constructor
      · intro agree
        refine ⟨fun _ => Or.inr ?_, fun absent => ?_⟩
        · rw [round, agree.mpr rfl]
        · rw [round] at absent
          cases absent
      · intro together
        rcases together.round noHash with absent | none
        · rw [round] at absent
          cases absent
        · rw [round, Argument.supplied.injEq] at none
          exact iff_of_true none rfl
    · -- both were supplied, and the check of the hash saw the prepared round
      have visible := (validatePreparedValueHash_eq_none_iff.mp passes).2 fields.preparedRound (by
        rw [round, prepared]
        rfl)
      refine iff_of_true ⟨visible.1, fun zero => ?_⟩ ⟨fun absent => ?_, fun absent => ?_⟩
      · by_contra some
        exact visible.2 (by omega) zero
      · rw [given] at absent
        cases absent
      · rw [round] at absent
        cases absent

/-- A constructed message is well formed exactly when its prepared fields were supplied
together. -/
theorem construct_wellFormed_iff (constructed : arguments.construct seesDefaults = .ok fields) :
    fields.WellFormed ↔ arguments.PreparedTogether := by
  obtain ⟨round, peer, nonneg, below, sized⟩ := bounds_of_construct constructed
  rw [← prepared_iff constructed]
  exact ⟨QBFTMsgFields.WellFormed.prepared, fun agree => ⟨round, peer, nonneg, below, sized, agree⟩⟩

/-- A ROUND-CHANGE with a prepared round, for which no hash is supplied. -/
def unhashed : QBFTMsgArguments where
  type := .supplied .roundChange
  duty := .supplied { slot := 1, type := .attester }
  peerIdx := .supplied 0
  round := .supplied 2
  preparedRound := .supplied 1

/-- The same message with its hash. -/
def hashed : QBFTMsgArguments :=
  { unhashed with preparedValueHash := .supplied (List.replicate 32 9) }

/-- With the hash the two prepared fields are checked against each other. -/
theorem construct_wellFormed_iff_hashed :
    (QBFTMsgFields.mk .roundChange { slot := 1, type := .attester } 0 2 1 none none
        (List.replicate 32 9)).WellFormed ↔ hashed.PreparedTogether :=
  @construct_wellFormed_iff true _ _ rfl

/-- The default hash stays unchecked next to a prepared round. -/
theorem unhashed_constructed :
    ∃ fields, unhashed.construct true = .ok fields ∧ unhashed.construct false = .ok fields ∧
      ¬ fields.WellFormed := by
  refine ⟨_, rfl, rfl, fun wellFormed => ?_⟩
  exact absurd (wellFormed.prepared.mpr rfl) (by decide)

end QBFTMsgArguments

end DvSpec.Consensus
