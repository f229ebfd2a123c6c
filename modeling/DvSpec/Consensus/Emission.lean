import DvSpec.Consensus.Acceptance
import DvSpec.Consensus.Crashes

/-!
# What an instance hands to its broadcasts

Five sites of the message handler broadcast.  Each hands over a message type, the
hash the broadcast is for and a justification; everything else a sent message
contains follows from these three and from the state.
-/

namespace DvSpec.Consensus

open DvSpec.Library

namespace Transport

variable {t : Transport}

theorem outgoing_forEachPeer {copy : Except PyError QBFTConsensusMsg} :
    outgoing (t.forEachPeer copy) ≠ [] ↔ t.numPeers ≠ 0 ∧ ¬ Raises copy := by
  unfold forEachPeer
  split
  · rename_i none
    simp [none]
  · simp [raises_error]
  · rename_i some
    simp [some, not_raises_ok]

theorem dedup_knownValue (valueHash : Option Bytes) :
    (t.knownValue valueHash).dedup = t.knownValue valueHash := by
  have length := t.length_knownValue_le valueHash
  cases values : t.knownValue valueHash with
  | nil => rfl
  | cons value more =>
      rw [values, List.length_cons] at length
      have none : more = [] := List.eq_nil_of_length_eq_zero (by omega)
      rw [none]
      rfl

variable [Crypto]

/-- A round change is announced with a complete or an absent prepared state. -/
theorem outgoing_broadcastRoundChange {duty : Duty} {peerIdx roundNum : Nat}
    {preparedRound : Option Nat} {preparedValueHash : Option Bytes}
    {preparedJustification : List QBFTMsg} (roundPos : 1 ≤ roundNum)
    (preparedLe : preparedRound.getD 0 ≤ roundNum)
    (preparedSized : (preparedValueHash.getD zeroHash).length = 32) :
    outgoing (t.broadcastRoundChange duty peerIdx roundNum preparedRound preparedValueHash
        preparedJustification) ≠ [] ↔
      t.CanSend ∧
        (preparedRound.getD 0 = 0 ↔ preparedValueHash.getD zeroHash = zeroHash) := by
  have signs := @signedMessage_raises t _ .roundChange duty peerIdx roundNum none preparedRound
    preparedValueHash roundPos preparedLe (fun _ absent => by cases absent) preparedSized
  have mapped : ∀ {answer : Except PyError QBFTMsg} {f : QBFTMsg → QBFTConsensusMsg},
      Raises (answer.map f) ↔ Raises answer := by
    intro answer f
    cases answer with
    | error error => simp [Except.map, raises_error]
    | ok msg => simp [Except.map, not_raises_ok]
  rw [broadcastRoundChange, outgoing_forEachPeer, mapped, signs, not_or, not_not, not_not]
  constructor
  · rintro ⟨peers, secret, consistent⟩
    exact ⟨⟨peers, secret⟩, consistent⟩
  · rintro ⟨⟨peers, secret⟩, consistent⟩
    exact ⟨peers, secret, consistent⟩

end Transport

namespace QBFTConsensus

variable [Crypto]

/-! ## Emissions -/

/-- The value of the highest PREPAREs of a justification, or else the own proposal. -/
def proposedHash (s : QBFTConsensus) (justification : List QBFTMsg) : Bytes :=
  match highestPrepared (preparedValues justification) with
  | some (_, pv) => pv
  | none => hashValue s.proposalValue

/-- A message makes the instance broadcast: the type, the hash the broadcast is for and the
justification. -/
inductive Emits (s : QBFTConsensus) (consensusMsg : QBFTConsensusMsg) :
    MsgType → Option Bytes → List QBFTMsg → Prop where
  | prePrepare {justification : List QBFTMsg}
      (triggers : s.Triggers consensusMsg .quorumRoundChanges)
      (result : (s.received consensusMsg).classify consensusMsg =
        .ok (.quorumRoundChanges, justification)) :
      Emits s consensusMsg .prePrepare (some (s.proposedHash justification)) justification
  | prepare {valueHash : Bytes} (triggers : s.Triggers consensusMsg .justifiedPrePrepare)
      (known : consensusMsg.msg.valueHash = some valueHash) :
      Emits s consensusMsg .prepare (some valueHash) []
  | commit {valueHash : Bytes} (triggers : s.Triggers consensusMsg .quorumPrepares)
      (known : consensusMsg.msg.valueHash = some valueHash) :
      Emits s consensusMsg .commit (some valueHash) []
  | roundChange (triggers : s.Triggers consensusMsg .fPlus1RoundChanges)
      (announced : ¬ s.PreparedNothing) :
      Emits s consensusMsg .roundChange s.preparedValueHash s.preparedJustification
  | decided {firstCommit : QBFTMsg} {valueHash : Bytes}
      (decided : s.DecidedOn firstCommit valueHash) (asks : s.AsksForDecision consensusMsg)
      (permits : s.Permits consensusMsg.msg.peerIdx consensusMsg.msg.round) :
      Emits s consensusMsg .decided (some valueHash) s.qCommit

/-- A sent message with what was handed to its broadcast. -/
structure Emitted (s : QBFTConsensus) (consensusMsg : QBFTConsensusMsg) (msgType : MsgType)
    (hash : Option Bytes) (justification : List QBFTMsg) (copy : QBFTConsensusMsg) : Prop where
  type : copy.msg.type = msgType
  valueHash : copy.msg.valueHash = if msgType = .roundChange then none else hash
  preparedRound :
    copy.msg.preparedRound = if msgType = .roundChange then s.preparedRound.getD 0 else 0
  preparedValueHash :
    copy.msg.preparedValueHash = if msgType = .roundChange then hash.getD zeroHash else zeroHash
  consistent : copy.msg.preparedRound = 0 ↔ copy.msg.preparedValueHash = zeroHash
  round : msgType = .prePrepare → copy.msg.round = s.round
  justification : copy.justification = justification
  values : copy.values = (s.storeValues consensusMsg.values).t.knownValue hash

variable {s : QBFTConsensus} {consensusMsg copy : QBFTConsensusMsg}

theorem emitted_of_broadcastMessage {msgType : MsgType} {roundNum : Nat} {valueHash : Bytes}
    {justification : List QBFTMsg} (other : msgType ≠ .roundChange)
    (current : msgType = .prePrepare → roundNum = s.round)
    (member : copy ∈ outgoing ((s.storeValues consensusMsg.values).t.broadcastMessage msgType
      s.duty s.peer roundNum valueHash justification)) :
    s.Emitted consensusMsg msgType (some valueHash) justification copy := by
  obtain ⟨built, same, values⟩ :=
    Transport.mem_broadcastMessage (eq_ok_of_mem_outgoing member) member
  rw [if_neg other] at built
  constructor
  · exact built.type_eq
  · rw [if_neg other]
    exact built.valueHash_eq
  · rw [if_neg other]
    exact built.preparedRound_eq
  · rw [if_neg other]
    exact built.preparedValueHash_eq
  · rw [built.preparedRound_eq, built.preparedValueHash_eq]
    exact built.consistent
  · exact fun first => built.round_eq.trans (current first)
  · exact same
  · rw [values, Transport.dedup_knownValue]

theorem emitted_of_broadcastRoundChange {roundNum : Nat}
    (member : copy ∈ outgoing ((s.storeValues consensusMsg.values).t.broadcastRoundChange s.duty
      s.peer roundNum s.preparedRound s.preparedValueHash s.preparedJustification)) :
    s.Emitted consensusMsg .roundChange s.preparedValueHash s.preparedJustification copy := by
  obtain ⟨built, same, values⟩ :=
    Transport.mem_broadcastRoundChange (eq_ok_of_mem_outgoing member) member
  constructor
  · exact built.type_eq
  · exact built.valueHash_eq
  · exact built.preparedRound_eq
  · exact built.preparedValueHash_eq
  · rw [built.preparedRound_eq, built.preparedValueHash_eq]
    exact built.consistent
  · intro other
    cases other
  · exact same
  · exact values

/-! ## From a justified quorum to its PRE-PREPARE -/

omit [Crypto] in
/-- Without PREPAREs there is nothing prepared in a justified quorum. -/
theorem highestPrepared_nullChanges (round : Nat) (messages : List QBFTMsg) :
    highestPrepared (preparedValues (nullChangesFor round messages)) = none := by
  refine highestPrepared_eq_none_iff.mpr fun j member prepare => ?_
  cases (mem_nullChangesFor.mp member).2.1.symm.trans prepare

/-- The PRE-PREPARE answers a justified quorum with the value of its PREPAREs. -/
theorem uponQuorumRoundChanges_eq {justification : List QBFTMsg}
    (found : (s.received consensusMsg).justifiedQrc s.round = some justification) :
    (s.marked consensusMsg .quorumRoundChanges).uponQuorumRoundChanges justification =
      (s.storeValues consensusMsg.values).t.broadcastMessage .prePrepare s.duty s.peer s.round
        (s.proposedHash justification) justification := by
  unfold uponQuorumRoundChanges proposedHash
  rcases justifiedQrc_cases found with ⟨rfl, -⟩ | ⟨-, pr, pv, changes, prepares, rfl, spec⟩
  · simp only [highestPrepared_nullChanges]
    rfl
  · obtain ⟨⟨first, enough, -⟩, -⟩ := PreparedQrc.selects spec
    simp only [highestPrepared_eq_some_iff.mpr first, getD_preparedValues]
    exact if_pos enough

theorem length_proposedHash (justification : List QBFTMsg) :
    (s.proposedHash justification).length = 32 := by
  unfold proposedHash
  split
  · rename_i highest
    obtain ⟨j, -, -, -, hashed⟩ := mem_keys_preparedValues.mp (List.argmax_mem highest)
    exact j.length_valueHash _ hashed
  · exact length_hashValue _

/-! ## What is sent -/

theorem Triggers.answer {rule : UponRule} (triggers : s.Triggers consensusMsg rule)
    {justification : List QBFTMsg}
    (result : (s.received consensusMsg).classify consensusMsg = .ok (rule, justification))
    (some : rule ≠ .nothing) :
    s.handleMessage consensusMsg =
      (s.marked consensusMsg rule).uponRule rule consensusMsg.msg justification :=
  handleMessage_of_classify triggers.toAccepts result some triggers.fresh

theorem canSend_storeValues {values : List Bytes} :
    (s.storeValues values).t.CanSend ↔ s.t.CanSend := by
  constructor
  · rintro ⟨peers, secret⟩
    exact ⟨peers, secret⟩
  · rintro ⟨peers, secret⟩
    exact ⟨peers, secret⟩

/-- A broadcast of a value hash is sent whenever the instance can send. -/
theorem answer_of_broadcastMessage {msgType : MsgType} {roundNum : Nat} {valueHash : Bytes}
    {justification : List QBFTMsg} (other : msgType ≠ .roundChange)
    (current : msgType = .prePrepare → roundNum = s.round) (positive : 1 ≤ roundNum)
    (sized : valueHash.length = 32)
    (answer : (s.handleMessage consensusMsg).1 = (s.storeValues
      consensusMsg.values).t.broadcastMessage msgType s.duty s.peer roundNum valueHash
        justification) :
    (outgoing (s.handleMessage consensusMsg).1 ≠ [] ↔ s.t.CanSend) ∧
      ∀ copy ∈ outgoing (s.handleMessage consensusMsg).1,
        s.Emitted consensusMsg msgType (some valueHash) justification copy := by
  rw [answer]
  refine ⟨?_, fun copy member => emitted_of_broadcastMessage other current member⟩
  exact (Transport.outgoing_broadcastMessage _ _ _ _ positive sized).trans canSend_storeValues

/-- What holds of an instance in every state of a run. -/
structure Steady (s : QBFTConsensus) : Prop where
  sound : s.Sound
  round : 1 ≤ s.round
  hash : s.PreparedHash
  prepared : s.PreparedJustified

theorem steady_new {d : Definition} (nodes : 0 < d.nodes) (t : Transport) (duty : Duty)
    (peer : Nat) (proposalValue : Bytes) : (new d t duty peer proposalValue).Steady where
  sound := sound_new nodes t duty peer proposalValue
  round := Nat.le_refl 1
  hash := ⟨fun _ => rfl, fun _ absent => by cases absent⟩
  prepared := Or.inl ⟨rfl, rfl, rfl⟩

theorem Steady.step (steady : s.Steady) (event : Event) : (s.step event).2.Steady where
  sound := steady.sound.step event
  round := (s.step_effect event).round_pos steady.round
  hash := (s.step_effect event).preparedHash steady.hash
  prepared := (s.step_effect event).preparedJustified steady.prepared

/-- What an instance emits is sent when it can send, and nothing else is. -/
theorem Emits.answer (steady : s.Steady) {msgType : MsgType} {hash : Option Bytes}
    {justification : List QBFTMsg} (emits : s.Emits consensusMsg msgType hash justification) :
    (outgoing (s.handleMessage consensusMsg).1 ≠ [] ↔ s.t.CanSend) ∧
      ∀ copy ∈ outgoing (s.handleMessage consensusMsg).1,
        s.Emitted consensusMsg msgType hash justification copy := by
  cases emits with
  | prePrepare triggers result =>
      obtain ⟨-, -, found, -⟩ := classified_of_classify (by decide) result
      apply answer_of_broadcastMessage (by decide) (fun _ => rfl) steady.round
        (length_proposedHash _)
      rw [triggers.answer result (by decide), uponRule, uponQuorumRoundChanges_eq found]
  | prepare triggers known =>
      obtain ⟨_, result⟩ := triggers.classify
      apply answer_of_broadcastMessage (by decide) (fun other => by cases other)
        consensusMsg.msg.round_pos (consensusMsg.msg.length_valueHash _ known)
      rw [triggers.answer result (by decide)]
      simp [uponRule, known]
  | commit triggers known =>
      obtain ⟨_, result⟩ := triggers.classify
      apply answer_of_broadcastMessage (by decide) (fun other => by cases other) steady.round
        (consensusMsg.msg.length_valueHash _ known)
      rw [triggers.answer result (by decide)]
      simp [uponRule, known]
  | roundChange triggers announced =>
      obtain ⟨_, result⟩ := triggers.classify
      have sound := steady.sound.prepared triggers.undecided
      obtain ⟨rmin, later, answer⟩ := uponFPlus1_eq steady.sound.nodes
        (classified_of_classify (by decide) result)
      rw [triggers.answer result (by decide), uponRule, answer]
      refine ⟨?_, fun copy member => emitted_of_broadcastRoundChange member⟩
      have consistent := not_not.mp (mt (not_consistent_iff sound steady.hash).mp announced)
      rw [Transport.outgoing_broadcastRoundChange (Nat.one_le_of_lt later) (sound.le later)
        steady.hash.length, and_iff_left consistent]
      exact canSend_storeValues
  | decided decided asks permits =>
      apply answer_of_broadcastMessage (by decide) (fun other => by cases other) decided.round
        (QBFTMsg.length_valueHash _ _ decided.known)
      rw [handleMessage_of_permits decided asks permits]

/-- The rules that send emit what they send. -/
theorem emits_of_uponRule (steady : s.Steady) {rule : UponRule} {justification : List QBFTMsg}
    (triggers : s.Triggers consensusMsg rule)
    (result : (s.received consensusMsg).classify consensusMsg = .ok (rule, justification))
    (some : rule ≠ .nothing)
    (sent : outgoing
      ((s.marked consensusMsg rule).uponRule rule consensusMsg.msg justification).1 ≠ []) :
    ∃ msgType hash handed, s.Emits consensusMsg msgType hash handed := by
  have classified := classified_of_classify some result
  cases rule with
  | nothing => exact absurd rfl some
  | roundTimeout => exact classified.elim
  | unjustQuorumRoundChanges => exact absurd rfl sent
  | quorumCommits => exact absurd rfl sent
  | justifiedDecided => exact absurd rfl sent
  | quorumRoundChanges => exact ⟨_, _, _, .prePrepare triggers result⟩
  | justifiedPrePrepare =>
      cases known : consensusMsg.msg.valueHash with
      | none => simp [uponRule, known] at sent
      | some valueHash => exact ⟨_, _, _, .prepare triggers known⟩
  | quorumPrepares =>
      cases known : consensusMsg.msg.valueHash with
      | none => simp [uponRule, known] at sent
      | some valueHash => exact ⟨_, _, _, .commit triggers known⟩
  | fPlus1RoundChanges =>
      have sound := steady.sound.prepared triggers.undecided
      obtain ⟨rmin, later, answer⟩ := uponFPlus1_eq steady.sound.nodes classified
      rw [uponRule, answer] at sent
      have consistent := ((Transport.outgoing_broadcastRoundChange (Nat.one_le_of_lt later)
        (sound.le later) steady.hash.length).mp sent).2
      exact ⟨_, _, _, .roundChange triggers fun nothing =>
        (not_consistent_iff sound steady.hash).mpr nothing consistent⟩

/-- An undecided instance sends nothing for a message that it does not accept. -/
theorem accepts_of_sent (undecided : s.qCommit = [])
    (sent : outgoing (s.handleMessage consensusMsg).1 ≠ []) : s.Accepts consensusMsg := by
  have effect := s.handleMessage_effect consensusMsg
  generalize s.handleMessage consensusMsg = outcome at effect sent
  cases effect with
  | idle _ silent => exact absurd silent sent
  | resent _ _ decided => cases undecided.symm.trans decided
  | kept _ _ accepts => exact accepts
  | noted _ _ _ accepts => exact accepts
  | prePrepared fires => exact fires.toAccepts
  | prepared fires => exact fires.toAccepts
  | committed fires => exact fires.toAccepts
  | adopted fires => exact fires.toAccepts
  | jumped fires => exact fires.toAccepts
  | proposed fires => exact fires.toAccepts

/-- Every message that is sent was emitted. -/
theorem emits_of_sent (steady : s.Steady) (sent : outgoing (s.handleMessage consensusMsg).1 ≠ []) :
    ∃ msgType hash justification, s.Emits consensusMsg msgType hash justification := by
  by_cases undecided : s.qCommit = []
  · have accepts := accepts_of_sent undecided sent
    obtain ⟨rule, justification, result⟩ :=
      @classify_returns (s.received consensusMsg) consensusMsg steady.sound.nodes
    by_cases quiet : rule = .nothing ∨ s.dedupRules.contains (rule, s.round) = true
    · rw [handleMessage_of_quiet accepts result quiet] at sent
      exact absurd rfl sent
    · obtain ⟨some, fresh⟩ := not_or.mp quiet
      have triggers : s.Triggers consensusMsg rule :=
        ⟨accepts, ⟨justification, result⟩, Bool.eq_false_of_not_eq_true fresh⟩
      rw [triggers.answer result some] at sent
      exact emits_of_uponRule steady triggers result some sent
  · obtain ⟨copy, member⟩ := List.exists_mem_of_ne_nil _ sent
    cases (s.handleMessage_effect consensusMsg).sends member with
    | prepare _ _ fires => exact absurd fires.undecided undecided
    | commit _ _ _ fires => exact absurd fires.undecided undecided
    | prePrepare _ _ _ fires => exact absurd fires.undecided undecided
    | roundChange none => exact absurd none.1 undecided
    | decided firstCommit more decided valueHash known =>
        have on : s.DecidedOn firstCommit valueHash := ⟨by rw [decided]; rfl, known, steady.round⟩
        obtain ⟨asks, -, permits⟩ := (answers_iff on).mp sent
        exact ⟨_, _, _, .decided on asks permits⟩

/-- A property of the sent messages that depends on what was emitted only. -/
theorem forall_sent_iff (steady : s.Steady) {property : QBFTConsensusMsg → Prop}
    {condition : MsgType → Option Bytes → List QBFTMsg → Prop}
    (depends : ∀ msgType hash justification, s.Emits consensusMsg msgType hash justification →
      ∀ copy, s.Emitted consensusMsg msgType hash justification copy →
        (property copy ↔ condition msgType hash justification)) :
    (∀ copy ∈ outgoing (s.handleMessage consensusMsg).1, property copy) ↔
      (s.t.CanSend → ∀ msgType hash justification,
        s.Emits consensusMsg msgType hash justification → condition msgType hash justification) := by
  constructor
  · intro holds canSend msgType hash justification emits
    obtain ⟨sends, emitted⟩ := emits.answer steady
    obtain ⟨copy, member⟩ := List.exists_mem_of_ne_nil _ (sends.mpr canSend)
    exact (depends _ _ _ emits copy (emitted copy member)).mp (holds copy member)
  · intro holds copy member
    have sent := List.ne_nil_of_mem member
    obtain ⟨msgType, hash, justification, emits⟩ := emits_of_sent steady sent
    obtain ⟨sends, emitted⟩ := emits.answer steady
    exact (depends _ _ _ emits copy (emitted copy member)).mpr
      (holds (sends.mp sent) _ _ _ emits)

end QBFTConsensus

end DvSpec.Consensus
