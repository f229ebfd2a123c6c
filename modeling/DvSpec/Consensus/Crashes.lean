import DvSpec.Consensus.Justification
import DvSpec.Consensus.Resends
import DvSpec.Consensus.VoteRounds

/-!
# Which messages raise

A message within the limits raises in three situations: a PRE-PREPARE reports a
prepared value without PREPAREs for any value, a round change has to announce a
prepared round without a prepared value, or a broadcast is due that cannot be
signed.  Everything else is answered with a list.
-/

namespace DvSpec.Consensus

open DvSpec.Library

/-- The call raises. -/
def Raises {α : Type} (answer : Except PyError α) : Prop := ∃ error, answer = .error error

theorem raises_error {α : Type} (error : PyError) : Raises (.error error : Except PyError α) :=
  ⟨error, rfl⟩

theorem not_raises_ok {α : Type} (value : α) : ¬ Raises (.ok value) := by
  rintro ⟨error, impossible⟩
  cases impossible

theorem not_raises_iff {α : Type} {answer : Except PyError α} :
    ¬ Raises answer ↔ ∃ value, answer = .ok value := by
  cases answer with
  | error error => simp [Raises]
  | ok value => simp [Raises]

/-! ## Broadcasts -/

namespace Transport

variable {t : Transport}

theorem forEachPeer_raises {copy : Except PyError QBFTConsensusMsg} :
    Raises (t.forEachPeer copy) ↔ t.numPeers ≠ 0 ∧ Raises copy := by
  unfold forEachPeer
  split
  · rename_i none
    simp [none, not_raises_ok]
  · rename_i some
    simp [some, raises_error]
  · rename_i some
    simp [some, not_raises_ok]

variable [Crypto]

/-- Signing a message with sized fields fails for a bad secret, or when the prepared round
and hash are not both present or both absent. -/
theorem signedMessage_raises {msgType : MsgType} {duty : Duty} {peerIdx roundNum : Nat}
    {valueHash : Option Bytes} {preparedRound : Option Nat} {preparedValueHash : Option Bytes}
    (roundPos : 1 ≤ roundNum) (preparedLe : preparedRound.getD 0 ≤ roundNum)
    (sized : ∀ hash ∈ valueHash, hash.length = 32)
    (preparedSized : (preparedValueHash.getD zeroHash).length = 32) :
    Raises (t.signedMessage msgType duty peerIdx roundNum valueHash preparedRound
        preparedValueHash) ↔
      t.privateKey.length ≠ 32 ∨
        ¬ (preparedRound.getD 0 = 0 ↔ preparedValueHash.getD zeroHash = zeroHash) := by
  constructor
  · intro raises
    by_contra good
    obtain ⟨secret, consistent⟩ := not_or.mp good
    obtain ⟨msg, success⟩ := signedMessage_succeeds (not_not.mp secret) msgType duty peerIdx
      valueHash preparedRound preparedValueHash roundPos preparedLe sized preparedSized
      (not_not.mp consistent)
    rw [success] at raises
    exact not_raises_ok msg raises
  · intro bad
    by_contra success
    obtain ⟨msg, built⟩ := not_raises_iff.mp success
    rcases bad with secret | inconsistent
    · exact secret (signedMessage_secret built)
    · exact inconsistent (built_of_signedMessage built).consistent

theorem broadcastMessage_raises {msgType : MsgType} {duty : Duty} {peerIdx roundNum : Nat}
    {valueHash : Bytes} {justification : List QBFTMsg} (roundPos : 1 ≤ roundNum)
    (sized : valueHash.length = 32) :
    Raises (t.broadcastMessage msgType duty peerIdx roundNum valueHash justification) ↔
      t.numPeers ≠ 0 ∧ t.privateKey.length ≠ 32 := by
  have known : ∀ hash ∈ (if msgType = .roundChange then none else some valueHash),
      hash.length = 32 := by
    intro hash present
    split at present
    · cases present
    · cases present
      exact sized
  have signs := @signedMessage_raises t _ msgType duty peerIdx roundNum _ none none roundPos
    (Nat.zero_le _) known rfl
  rw [broadcastMessage, forEachPeer_raises, and_congr_right_iff]
  intro _
  rw [show (t.privateKey.length ≠ 32 ↔ _) from by simpa using signs.symm]
  cases t.signedMessage msgType duty peerIdx roundNum
      (if msgType = .roundChange then none else some valueHash) none none with
  | error error => simp [Except.map, raises_error]
  | ok msg => simp [Except.map, not_raises_ok]

theorem broadcastRoundChange_raises {duty : Duty} {peerIdx roundNum : Nat}
    {preparedRound : Option Nat} {preparedValueHash : Option Bytes}
    {preparedJustification : List QBFTMsg} (roundPos : 1 ≤ roundNum)
    (preparedLe : preparedRound.getD 0 ≤ roundNum)
    (preparedSized : (preparedValueHash.getD zeroHash).length = 32) :
    Raises (t.broadcastRoundChange duty peerIdx roundNum preparedRound preparedValueHash
        preparedJustification) ↔
      t.numPeers ≠ 0 ∧ (t.privateKey.length ≠ 32 ∨
        ¬ (preparedRound.getD 0 = 0 ↔ preparedValueHash.getD zeroHash = zeroHash)) := by
  have signs := @signedMessage_raises t _ .roundChange duty peerIdx roundNum none preparedRound
    preparedValueHash roundPos preparedLe (fun _ absent => by cases absent) preparedSized
  rw [broadcastRoundChange, forEachPeer_raises, ← signs]
  cases t.signedMessage .roundChange duty peerIdx roundNum none preparedRound
      preparedValueHash with
  | error error => simp [Except.map, raises_error]
  | ok msg => simp [Except.map, not_raises_ok]

end Transport

namespace QBFTConsensus

variable {s : QBFTConsensus} {consensusMsg : QBFTConsensusMsg}

/-! ## Justification checks -/

/-- The leader of a later round shows enough ROUND-CHANGE messages, not all null-prepared,
but no PREPARE that carries a value hash. -/
structure LacksPrepares (s : QBFTConsensus) (consensusMsg : QBFTConsensusMsg) : Prop where
  type : consensusMsg.msg.type = .prePrepare
  leader : s.d.leader s.duty consensusMsg.msg.round = consensusMsg.msg.peerIdx
  later : consensusMsg.msg.round ≠ 1
  quorum : s.d.quorum ≤
    (roundChangesFor consensusMsg.msg.round consensusMsg.justification).length
  reported : ¬ AllNonePrepared consensusMsg.msg.round consensusMsg.justification
  unprepared : ∀ j ∈ consensusMsg.justification, j.type = .prepare → j.valueHash = none

/-- The justification check raises exactly on the empty `max()`. -/
theorem isJustifiedPrePrepare_raises (nodes : 0 < s.d.nodes)
    (type : consensusMsg.msg.type = .prePrepare) :
    Raises (s.isJustifiedPrePrepare consensusMsg) ↔ s.LacksPrepares consensusMsg := by
  have noneIff : (roundChangesFor consensusMsg.msg.round consensusMsg.justification).all
      QBFTMsg.nonePrepared = true ↔
      AllNonePrepared consensusMsg.msg.round consensusMsg.justification := List.all_eq_true
  have leads := Definition.isLeader_eq_ok nodes s.duty consensusMsg.msg.round
    consensusMsg.msg.peerIdx
  have returns : ∀ {answer : Bool}, ¬ s.LacksPrepares consensusMsg →
      (Raises (.ok answer : Except PyError Bool) ↔ s.LacksPrepares consensusMsg) :=
    fun lacks => ⟨fun raises => absurd raises (not_raises_ok _), fun here => absurd here lacks⟩
  unfold isJustifiedPrePrepare
  simp only [type, ne_eq, not_true, if_false, leads]
  by_cases leader : s.d.leader s.duty consensusMsg.msg.round = consensusMsg.msg.peerIdx
  · rw [decide_eq_true leader]
    dsimp only
    split
    · rename_i first
      exact returns fun lacks => lacks.later first
    · rename_i later
      split
      · rename_i short
        exact returns fun lacks => absurd lacks.quorum (Nat.not_le.mpr short)
      · rename_i enough
        split
        · rename_i none
          exact returns fun lacks => lacks.reported (noneIff.mp none)
        · rename_i reported
          split
          · rename_i absent
            refine ⟨fun _ => ?_, fun _ => raises_error _⟩
            exact ⟨type, leader, later, Nat.not_lt.mp enough,
              fun none => reported (noneIff.mpr none), highestPrepared_eq_none_iff.mp absent⟩
          · rename_i pr pv highest
            have lacks : ¬ s.LacksPrepares consensusMsg := by
              intro lacks
              rw [highestPrepared_eq_none_iff.mpr lacks.unprepared] at highest
              cases highest
            split
            · exact returns lacks
            · split
              · exact returns lacks
              · split
                · exact returns lacks
                · exact returns lacks
  · rw [decide_eq_false leader]
    exact returns fun lacks => leader lacks.leader

theorem isJustified_raises (nodes : 0 < s.d.nodes) :
    Raises (s.isJustified consensusMsg) ↔ s.LacksPrepares consensusMsg := by
  by_cases prePrepare : consensusMsg.msg.type = .prePrepare
  · rw [isJustified_prePrepare prePrepare]
    exact isJustifiedPrePrepare_raises nodes prePrepare
  · constructor
    · rintro ⟨error, failed⟩
      unfold isJustified at failed
      split at failed
      · rename_i type
        exact absurd type prePrepare
      all_goals cases failed
    · intro lacks
      exact absurd lacks.type prePrepare

/-! ## Classification -/

/-- With nodes the classification never raises. -/
theorem classify_returns (nodes : 0 < s.d.nodes) :
    ∃ rule justification, s.classify consensusMsg = .ok (rule, justification) := by
  have leads := Definition.isLeader_eq_ok nodes s.duty consensusMsg.msg.round s.peer
  unfold classify
  dsimp only
  split
  · exact ⟨_, _, rfl⟩
  · split <;> exact ⟨_, _, rfl⟩
  · split
    · exact ⟨_, _, rfl⟩
    · split <;> exact ⟨_, _, rfl⟩
  · split
    · exact ⟨_, _, rfl⟩
    · split <;> exact ⟨_, _, rfl⟩
  · unfold classifyRoundChange
    dsimp only
    rw [leads]
    split
    · exact ⟨_, _, rfl⟩
    · split
      · split <;> exact ⟨_, _, rfl⟩
      · split
        · exact ⟨_, _, rfl⟩
        · split
          · exact ⟨_, _, rfl⟩
          · by_cases leader : s.d.leader s.duty consensusMsg.msg.round = s.peer
            · rw [decide_eq_true leader]
              exact ⟨_, _, rfl⟩
            · rw [decide_eq_false leader]
              exact ⟨_, _, rfl⟩

/-- The smallest of a list of future rounds is found. -/
theorem smallestRound_returns {current : Nat} (justification : List QBFTMsg)
    {rmin : Option Nat}
    (future : ∀ j ∈ justification, j.type = .roundChange ∧ current < j.round)
    (nonempty : justification ≠ [] ∨ rmin ≠ none) :
    ∃ result, smallestRound current justification rmin = .ok (some result) := by
  induction justification generalizing rmin with
  | nil =>
      cases rmin with
      | none => exact absurd rfl (nonempty.resolve_left (not_not_intro rfl))
      | some smallest => exact ⟨smallest, rfl⟩
  | cons j rest ih =>
      obtain ⟨type, later⟩ := future j List.mem_cons_self
      unfold smallestRound
      rw [if_neg (not_not_intro type), if_neg (Nat.not_le.mpr later)]
      apply ih fun k member => future k (List.mem_cons_of_mem _ member)
      right
      cases rmin with
      | none => exact Option.some_ne_none _
      | some smallest =>
          dsimp only
          split <;> exact Option.some_ne_none _

/-! ## The prepared state -/

/-- A prepared hash comes with a prepared round, and has 32 bytes. -/
structure PreparedHash (s : QBFTConsensus) : Prop where
  paired : s.preparedRound = none → s.preparedValueHash = none
  sized : ∀ hash ∈ s.preparedValueHash, hash.length = 32

theorem PreparedHash.length (prepared : s.PreparedHash) :
    (s.preparedValueHash.getD zeroHash).length = 32 := by
  cases stored : s.preparedValueHash with
  | none => rfl
  | some hash => exact prepared.sized hash stored

variable [Crypto]

theorem Effect.preparedHash {event : Event} {outcome : Outcome} (effect : s.Effect event outcome)
    (prepared : s.PreparedHash) : outcome.2.PreparedHash := by
  rcases effect.preparedState with ⟨round, hash, -⟩ | ⟨consensusMsg, -, -, round, hash⟩
  · constructor
    · rw [round, hash]
      exact prepared.paired
    · rw [hash]
      exact prepared.sized
  · constructor
    · intro none
      rw [none] at round
      cases round
    · rw [hash]
      exact consensusMsg.msg.length_valueHash

theorem preparedHash_final (d : Definition) (t : Transport) (duty : Duty) (peer : Nat)
    (proposalValue : Bytes) (events : List Event) :
    (Machine.final step (new d t duty peer proposalValue) events).PreparedHash :=
  Machine.final_invariant (C := fun _ _ => True) (I := PreparedHash)
    (fun state event prepared _ => (state.step_effect event).preparedHash prepared)
    ⟨fun _ => rfl, fun _ absent => by cases absent⟩ fun _ _ => trivial

/-! ## Rules that broadcast -/

/-- An accepted message triggers a rule that was not triggered in this round before. -/
structure Triggers (s : QBFTConsensus) (consensusMsg : QBFTConsensusMsg) (rule : UponRule) :
    Prop extends Accepts s consensusMsg where
  classify : ∃ justification,
    (s.received consensusMsg).classify consensusMsg = .ok (rule, justification)
  fresh : s.dedupRules.contains (rule, s.round) = false

/-- The rules that broadcast; two of them only for a message with a value hash. -/
def Broadcasts (valueHash : Option Bytes) : UponRule → Prop
  | .justifiedPrePrepare => valueHash ≠ none
  | .quorumPrepares => valueHash ≠ none
  | .fPlus1RoundChanges => True
  | .quorumRoundChanges => True
  | _ => False

/-- The prepared round has no prepared value to announce. -/
structure PreparedNothing (s : QBFTConsensus) : Prop where
  round : s.preparedRound ≠ none
  hash : s.preparedValueHash.getD zeroHash = zeroHash

omit [Crypto] in
theorem not_consistent_iff (sound : s.PreparedInRound) (prepared : s.PreparedHash) :
    ¬ (s.preparedRound.getD 0 = 0 ↔ s.preparedValueHash.getD zeroHash = zeroHash) ↔
      s.PreparedNothing := by
  cases stored : s.preparedRound with
  | none =>
      have missing := prepared.paired stored
      constructor
      · intro inconsistent
        rw [missing] at inconsistent
        exact absurd ⟨fun _ => rfl, fun _ => rfl⟩ inconsistent
      · intro nothing
        exact absurd stored nothing.round
  | some pr =>
      have positive := (sound.2 pr stored).1
      have nonzero : ¬ pr = 0 := Nat.ne_of_gt positive
      constructor
      · intro inconsistent
        have zero : s.preparedValueHash.getD zeroHash = zeroHash := by
          by_contra known
          exact inconsistent ⟨fun absent => absurd absent nonzero, fun hash => absurd hash known⟩
        exact ⟨by rw [stored]; exact Option.some_ne_none pr, zero⟩
      · intro nothing consistent
        exact nonzero (consistent.mpr nothing.hash)

/-- The own transport cannot sign for the peers it has. -/
structure CannotSign (s : QBFTConsensus) : Prop where
  peers : s.t.numPeers ≠ 0
  secret : s.t.privateKey.length ≠ 32

theorem broadcast_raises (type : MsgType) {round : Nat} {valueHash : Bytes}
    (justification : List QBFTMsg) (positive : 1 ≤ round) (sized : valueHash.length = 32) :
    Raises (s.t.broadcastMessage type s.duty s.peer round valueHash justification) ↔
      s.CannotSign := by
  rw [Transport.broadcastMessage_raises positive sized]
  exact ⟨fun bad => ⟨bad.1, bad.2⟩, fun bad => ⟨bad.peers, bad.secret⟩⟩

/-- A triggered F_PLUS_1_ROUND_CHANGES rule announces the prepared state in a later round. -/
theorem uponFPlus1_eq {justification : List QBFTMsg} (nodes : 0 < s.d.nodes)
    (classified : (s.received consensusMsg).Classified consensusMsg justification
      .fPlus1RoundChanges) :
    ∃ rmin, s.round < rmin ∧
      ((s.marked consensusMsg .fPlus1RoundChanges).uponFPlus1 justification).1 =
        (s.storeValues consensusMsg.values).t.broadcastRoundChange s.duty s.peer rmin
          s.preparedRound s.preparedValueHash s.preparedJustification := by
  obtain ⟨-, -, chosen, enough⟩ := classified
  rw [d_received] at enough
  have some_change : justification ≠ [] := by
    rintro rfl
    have faulty := Definition.faulty_nonneg nodes
    rw [List.length_nil] at enough
    omega
  have future : ∀ j ∈ justification, j.type = .roundChange ∧ s.round < j.round := by
    intro j member
    rw [chosen] at member
    exact (mem_values_highestBySource member).2
  obtain ⟨rmin, smallest⟩ :=
    @smallestRound_returns s.round justification none future (Or.inl some_change)
  have later : s.round < rmin := by
    rcases smallestRound_spec justification smallest with start | ⟨later, -⟩
    · cases start
    · exact later
  refine ⟨rmin, later, ?_⟩
  rw [uponFPlus1, d_marked, if_neg (Int.not_lt.mpr enough), round_marked, smallest]
  simp only [t_changeRound, duty_changeRound, peer_changeRound, round_changeRound,
    preparedRound_changeRound, preparedValueHash_changeRound, preparedJustification_changeRound]
  rfl

omit [Crypto] in
theorem PreparedInRound.le {rmin : Nat} (sound : s.PreparedInRound) (later : s.round < rmin) :
    s.preparedRound.getD 0 ≤ rmin := by
  cases stored : s.preparedRound with
  | none => exact Nat.zero_le _
  | some pr => exact Nat.le_trans (sound.2 pr stored).2 (Nat.le_of_lt later)

/-- A triggered F_PLUS_1_ROUND_CHANGES rule raises exactly where its broadcast does. -/
theorem uponFPlus1_raises {justification : List QBFTMsg} (nodes : 0 < s.d.nodes)
    (sound : s.PreparedInRound) (prepared : s.PreparedHash)
    (classified : (s.received consensusMsg).Classified consensusMsg justification
      .fPlus1RoundChanges) :
    Raises ((s.marked consensusMsg .fPlus1RoundChanges).uponFPlus1 justification).1 ↔
      s.t.numPeers ≠ 0 ∧ (s.t.privateKey.length ≠ 32 ∨ s.PreparedNothing) := by
  obtain ⟨rmin, later, answer⟩ := uponFPlus1_eq nodes classified
  rw [answer]
  refine (Transport.broadcastRoundChange_raises (Nat.one_le_of_lt later) (sound.le later)
    prepared.length).trans ?_
  rw [← not_consistent_iff sound prepared]
  rfl

/-- The broadcast of a leader raises only when it cannot sign. -/
theorem uponQuorumRoundChanges_raises {justification : List QBFTMsg} (round : 1 ≤ s.round) :
    Raises (s.uponQuorumRoundChanges justification) ↔ s.CannotSign := by
  have own := broadcast_raises (s := s) .prePrepare justification round
    (length_hashValue s.proposalValue)
  unfold uponQuorumRoundChanges
  dsimp only
  split
  · exact own
  · rename_i pr pv highest
    split
    · apply broadcast_raises .prePrepare justification round
      obtain ⟨j, -, -, -, hashed⟩ := mem_keys_preparedValues.mp (List.argmax_mem highest)
      exact j.length_valueHash pv hashed
    · exact own

/-- When the reaction to a triggered rule raises. -/
theorem uponRule_raises {rule : UponRule} {justification : List QBFTMsg} (nodes : 0 < s.d.nodes)
    (sound : s.PreparedInRound) (prepared : s.PreparedHash)
    (classified : (s.received consensusMsg).Classified consensusMsg justification rule) :
    Raises ((s.marked consensusMsg rule).uponRule rule consensusMsg.msg justification).1 ↔
      (Broadcasts consensusMsg.msg.valueHash rule ∧ s.CannotSign) ∨
        (rule = .fPlus1RoundChanges ∧ s.t.numPeers ≠ 0 ∧ s.PreparedNothing) := by
  have broadcasts : ∀ type valueHash, consensusMsg.msg.valueHash = some valueHash →
      ∀ round, 1 ≤ round → (Raises ((s.storeValues consensusMsg.values).t.broadcastMessage type
        s.duty s.peer round valueHash) ↔ (s.storeValues consensusMsg.values).CannotSign) :=
    fun type valueHash hashed _ positive =>
      broadcast_raises type [] positive (consensusMsg.msg.length_valueHash valueHash hashed)
  have unchanged : (s.storeValues consensusMsg.values).CannotSign ↔ s.CannotSign :=
    ⟨fun bad => ⟨bad.peers, bad.secret⟩, fun bad => ⟨bad.peers, bad.secret⟩⟩
  cases rule with
  | nothing => exact classified.elim
  | roundTimeout => exact classified.elim
  | unjustQuorumRoundChanges => simp [uponRule, not_raises_ok, Broadcasts]
  | quorumCommits => simp [uponRule, not_raises_ok, Broadcasts]
  | justifiedDecided => simp [uponRule, not_raises_ok, Broadcasts]
  | fPlus1RoundChanges =>
      refine (uponFPlus1_raises nodes sound prepared classified).trans ?_
      constructor
      · rintro ⟨peers, secret | nothing⟩
        · exact Or.inl ⟨trivial, peers, secret⟩
        · exact Or.inr ⟨rfl, peers, nothing⟩
      · rintro (⟨-, peers, secret⟩ | ⟨-, peers, nothing⟩)
        · exact ⟨peers, Or.inl secret⟩
        · exact ⟨peers, Or.inr nothing⟩
  | quorumRoundChanges =>
      have raises : Raises ((s.marked consensusMsg .quorumRoundChanges).uponQuorumRoundChanges
          justification) ↔ (s.marked consensusMsg .quorumRoundChanges).CannotSign :=
        uponQuorumRoundChanges_raises sound.1
      refine raises.trans ?_
      constructor
      · rintro ⟨peers, secret⟩
        exact Or.inl ⟨trivial, peers, secret⟩
      · rintro (⟨-, peers, secret⟩ | ⟨other, -⟩)
        · exact ⟨peers, secret⟩
        · cases other
  | justifiedPrePrepare =>
      cases hashed : consensusMsg.msg.valueHash with
      | none => simp [uponRule, hashed, not_raises_ok, Broadcasts]
      | some valueHash =>
          have raises := broadcasts .prepare valueHash hashed consensusMsg.msg.round
            consensusMsg.msg.round_pos
          simpa [uponRule, hashed, Broadcasts, unchanged] using raises
  | quorumPrepares =>
      cases hashed : consensusMsg.msg.valueHash with
      | none => simp [uponRule, hashed, not_raises_ok, Broadcasts]
      | some valueHash =>
          have raises := broadcasts .commit valueHash hashed s.round sound.1
          simpa [uponRule, hashed, Broadcasts, unchanged] using raises

/-! ## Messages that raise -/

/-- The messages within the limits that make an instance raise. -/
inductive Crashes (s : QBFTConsensus) (consensusMsg : QBFTConsensusMsg) : Prop where
  /-- The justification check of a PRE-PREPARE takes the maximum of no candidates. -/
  | justification (undecided : s.qCommit = []) (duty : consensusMsg.msg.duty = s.duty)
      (lacks : s.LacksPrepares consensusMsg)
  /-- A prepared round is announced for which no prepared value was stored. -/
  | announcement (triggers : s.Triggers consensusMsg .fPlus1RoundChanges)
      (peers : s.t.numPeers ≠ 0) (nothing : s.PreparedNothing)
  /-- A triggered rule broadcasts without a valid secret. -/
  | broadcast (rule : UponRule) (triggers : s.Triggers consensusMsg rule)
      (broadcasts : Broadcasts consensusMsg.msg.valueHash rule) (cannotSign : s.CannotSign)
  /-- A decision is repeated without a valid secret. -/
  | resend (firstCommit : QBFTMsg) (valueHash : Bytes)
      (decided : s.DecidedOn firstCommit valueHash) (asks : s.AsksForDecision consensusMsg)
      (permits : s.Permits consensusMsg.msg.peerIdx consensusMsg.msg.round)
      (cannotSign : s.CannotSign)

/-- A message triggers only the rule it is classified as. -/
theorem Triggers.eq {rule other : UponRule} {justification : List QBFTMsg}
    (triggers : s.Triggers consensusMsg other)
    (result : (s.received consensusMsg).classify consensusMsg = .ok (rule, justification)) :
    other = rule := by
  obtain ⟨_, same⟩ := triggers.classify
  rw [result] at same
  exact (congrArg Prod.fst (Except.ok.inj same)).symm

/-- An accepted message can only crash through the rule that it triggers. -/
theorem Crashes.triggers (nodes : 0 < s.d.nodes) (accepts : s.Accepts consensusMsg)
    (crashes : s.Crashes consensusMsg) :
    ∃ rule, s.Triggers consensusMsg rule ∧
      ((Broadcasts consensusMsg.msg.valueHash rule ∧ s.CannotSign) ∨
        (rule = .fPlus1RoundChanges ∧ s.t.numPeers ≠ 0 ∧ s.PreparedNothing)) := by
  cases crashes with
  | justification _ _ lacks =>
      have raises := (isJustified_raises nodes).mpr lacks
      rw [accepts.justified] at raises
      exact absurd raises (not_raises_ok _)
  | announcement triggers peers nothing => exact ⟨_, triggers, Or.inr ⟨rfl, peers, nothing⟩⟩
  | broadcast rule triggers broadcasts cannotSign =>
      exact ⟨rule, triggers, Or.inl ⟨broadcasts, cannotSign⟩⟩
  | resend _ _ decided => exact absurd accepts.undecided decided.ne_nil

/-- An accepted message raises exactly where the rule that it triggers does. -/
theorem accepted_raises (nodes : 0 < s.d.nodes) (sound : s.PreparedInRound)
    (prepared : s.PreparedHash) (accepts : s.Accepts consensusMsg) :
    Raises (s.handleMessage consensusMsg).1 ↔ s.Crashes consensusMsg := by
  obtain ⟨rule, justification, result⟩ :=
    @classify_returns (s.received consensusMsg) consensusMsg nodes
  by_cases quiet : rule = .nothing ∨ s.dedupRules.contains (rule, s.round) = true
  · rw [handleMessage_of_quiet accepts result quiet]
    refine ⟨fun raises => absurd raises (not_raises_ok _), fun crashes => ?_⟩
    obtain ⟨other, triggers, reason⟩ := crashes.triggers nodes accepts
    obtain rfl := triggers.eq result
    rcases quiet with rfl | recorded
    · rcases reason with ⟨broadcasts, -⟩ | ⟨jumps, -⟩
      · exact broadcasts.elim
      · cases jumps
    · rw [triggers.fresh] at recorded
      cases recorded
  · obtain ⟨some, fresh⟩ := not_or.mp quiet
    have unrecorded := Bool.eq_false_of_not_eq_true fresh
    have triggers : s.Triggers consensusMsg rule :=
      ⟨accepts, ⟨justification, result⟩, unrecorded⟩
    rw [handleMessage_of_classify accepts result some unrecorded,
      uponRule_raises nodes sound prepared (classified_of_classify some result)]
    constructor
    · rintro (⟨broadcasts, cannotSign⟩ | ⟨rfl, peers, nothing⟩)
      · exact .broadcast rule triggers broadcasts cannotSign
      · exact .announcement triggers peers nothing
    · intro crashes
      obtain ⟨other, others, reason⟩ := crashes.triggers nodes accepts
      rwa [others.eq result] at reason

theorem answerDecided_raises {msg firstCommit : QBFTMsg} (round : 1 ≤ s.round) :
    Raises (s.answerDecided msg firstCommit).1 ↔
      (msg.peerIdx ≠ s.peer ∧ msg.type = .roundChange) ∧ s.Permits msg.peerIdx msg.round ∧
        firstCommit.valueHash ≠ none ∧ s.CannotSign := by
  unfold answerDecided
  by_cases asks : msg.peerIdx ≠ s.peer ∧ msg.type = .roundChange
  · rw [if_pos asks]
    by_cases permits : s.Permits msg.peerIdx msg.round
    · rw [allowDecidedResend_of_permits permits]
      cases known : firstCommit.valueHash with
      | none => simp [not_raises_ok]
      | some valueHash =>
          have sized := firstCommit.length_valueHash valueHash known
          refine (broadcast_raises .decided s.qCommit round sized).trans ?_
          constructor
          · rintro ⟨peers, secret⟩
            exact ⟨asks, permits, Option.some_ne_none _, peers, secret⟩
          · rintro ⟨-, -, -, peers, secret⟩
            exact ⟨peers, secret⟩
    · rw [allowDecidedResend_of_not_permits permits]
      simp [not_raises_ok, permits]
  · rw [if_neg asks]
    simp [not_raises_ok, asks]

/-- A decided instance raises exactly where it repeats a decision that it cannot sign. -/
theorem decided_raises (round : 1 ≤ s.round) (decided : s.qCommit ≠ [])
    (limits : verifyMsgLimits consensusMsg s.d.nodes = .ok ()) :
    Raises (s.handleMessage consensusMsg).1 ↔ s.Crashes consensusMsg := by
  obtain ⟨firstCommit, more, qCommit⟩ := List.exists_cons_of_ne_nil decided
  have first : s.qCommit.head? = some firstCommit := by rw [qCommit]; rfl
  have stored : (s.storeValues consensusMsg.values).qCommit = firstCommit :: more := qCommit
  have only : s.Crashes consensusMsg → ∃ firstCommit valueHash, s.DecidedOn firstCommit valueHash ∧
      s.AsksForDecision consensusMsg ∧
      s.Permits consensusMsg.msg.peerIdx consensusMsg.msg.round ∧ s.CannotSign := by
    intro crashes
    cases crashes with
    | justification undecided => exact absurd undecided decided
    | announcement triggers => exact absurd triggers.undecided decided
    | broadcast _ triggers => exact absurd triggers.undecided decided
    | resend firstCommit valueHash known asks permits cannotSign =>
        exact ⟨firstCommit, valueHash, known, asks, permits, cannotSign⟩
  unfold handleMessage
  rw [limits]
  dsimp only
  by_cases duty : consensusMsg.msg.duty = s.duty
  · have here : ¬ consensusMsg.msg.duty ≠ (s.storeValues consensusMsg.values).duty :=
      not_not_intro duty
    have raises := @answerDecided_raises (s.storeValues consensusMsg.values) _ consensusMsg.msg
      firstCommit round
    rw [if_neg here, stored]
    refine raises.trans ?_
    constructor
    · rintro ⟨⟨other, type⟩, permits, known, peers, secret⟩
      obtain ⟨valueHash, hashed⟩ := Option.ne_none_iff_exists'.mp known
      exact .resend firstCommit valueHash ⟨first, hashed, round⟩ ⟨limits, duty, other, type⟩
        permits ⟨peers, secret⟩
    · intro crashes
      obtain ⟨answered, valueHash, known, asks, permits, cannotSign⟩ := only crashes
      have same : answered = firstCommit := Option.some.inj (known.qCommit.symm.trans first)
      rw [← same, known.known]
      exact ⟨⟨asks.other, asks.type⟩, permits, Option.some_ne_none _, cannotSign.peers,
        cannotSign.secret⟩
  · have elsewhere : consensusMsg.msg.duty ≠ (s.storeValues consensusMsg.values).duty := duty
    rw [if_pos elsewhere]
    refine ⟨fun raises => absurd raises (not_raises_ok _), fun crashes => ?_⟩
    obtain ⟨-, -, -, asks, -⟩ := only crashes
    exact absurd asks.duty duty

/-- An undecided instance raises exactly in the listed situations. -/
theorem undecided_raises (nodes : 0 < s.d.nodes) (sound : s.PreparedInRound)
    (prepared : s.PreparedHash) (undecided : s.qCommit = [])
    (limits : verifyMsgLimits consensusMsg s.d.nodes = .ok ()) :
    Raises (s.handleMessage consensusMsg).1 ↔ s.Crashes consensusMsg := by
  by_cases accepts : s.Accepts consensusMsg
  · exact accepted_raises nodes sound prepared accepts
  · have only : s.Crashes consensusMsg ↔
        consensusMsg.msg.duty = s.duty ∧ s.LacksPrepares consensusMsg := by
      constructor
      · intro crashes
        cases crashes with
        | justification _ duty lacks => exact ⟨duty, lacks⟩
        | announcement triggers => exact absurd triggers.toAccepts accepts
        | broadcast _ triggers => exact absurd triggers.toAccepts accepts
        | resend _ _ decided => exact absurd undecided decided.ne_nil
      · rintro ⟨duty, lacks⟩
        exact .justification undecided duty lacks
    have stored : (s.storeValues consensusMsg.values).qCommit = [] := undecided
    have check : (s.storeValues consensusMsg.values).isJustified consensusMsg =
        s.isJustified consensusMsg := rfl
    rw [only, ← isJustified_raises nodes]
    unfold handleMessage
    rw [limits]
    dsimp only
    by_cases duty : consensusMsg.msg.duty = s.duty
    · have here : ¬ consensusMsg.msg.duty ≠ (s.storeValues consensusMsg.values).duty :=
        not_not_intro duty
      rw [if_neg here, stored, check]
      dsimp only
      cases justified : s.isJustified consensusMsg with
      | error error => exact ⟨fun _ => ⟨duty, raises_error _⟩, fun _ => raises_error _⟩
      | ok answer =>
          cases answer with
          | false => simp [not_raises_ok]
          | true => exact absurd ⟨limits, duty, undecided, justified⟩ accepts
    · have elsewhere : consensusMsg.msg.duty ≠ (s.storeValues consensusMsg.values).duty := duty
      rw [if_pos elsewhere]
      simp [not_raises_ok, duty]

/-! ## Runs -/

theorem round_pos_final (d : Definition) (t : Transport) (duty : Duty) (peer : Nat)
    (proposalValue : Bytes) (events : List Event) :
    1 ≤ (Machine.final step (new d t duty peer proposalValue) events).round :=
  Machine.final_invariant (C := fun _ _ => True) (I := fun s : QBFTConsensus => 1 ≤ s.round)
    (fun state event positive _ => (state.step_effect event).round_pos positive)
    (Nat.le_refl 1) fun _ _ => trivial

/-- In every reachable state, a message within the limits is answered with a list unless it is
one of the crashing ones. -/
theorem run_returns_iff {d : Definition} (nodes : 0 < d.nodes) (t : Transport) (duty : Duty)
    (peer : Nat) (proposalValue : Bytes) (events : List Event) (consensusMsg : QBFTConsensusMsg)
    (limits : verifyMsgLimits consensusMsg d.nodes = .ok ()) :
    (∃ sent, ((Machine.final step (new d t duty peer proposalValue) events).handleMessage
        consensusMsg).1 = .ok sent) ↔
      ¬ (Machine.final step (new d t duty peer proposalValue) events).Crashes consensusMsg := by
  have start := sound_new nodes t duty peer proposalValue
  have sound := sound_final start events
  have prepared := preparedHash_final d t duty peer proposalValue events
  have round := round_pos_final d t duty peer proposalValue events
  have same : (Machine.final step (new d t duty peer proposalValue) events).d = d :=
    (final_sameConfig (new d t duty peer proposalValue) events).d
  generalize Machine.final step (new d t duty peer proposalValue) events = s at *
  subst same
  rw [← not_raises_iff, not_iff_not]
  by_cases undecided : s.qCommit = []
  · exact undecided_raises nodes (sound.prepared undecided) prepared undecided limits
  · exact decided_raises round undecided limits

open FourPeers in
omit [Crypto] in
/-- A PREPARE is answered by a peer that handled a ROUND-CHANGE before. -/
theorem run_returns_fourPeers :
    letI := constantCrypto
    ∃ sent, ((Machine.final step (new definition transport attesterDuty 0 [7])
      [receive (changeTo 1 2)]).handleMessage { msg := vote .prepare 1 1 9 }).1 = .ok sent := by
  apply (@run_returns_iff constantCrypto definition (by decide) transport attesterDuty 0 [7]
    [receive (changeTo 1 2)] { msg := vote .prepare 1 1 9 } (by decide)).mpr
  intro crashes
  cases crashes with
  | justification _ _ lacks => exact absurd lacks.type (by decide)
  | announcement _ _ nothing => exact nothing.round (by decide +kernel)
  | broadcast _ _ _ cannotSign => exact cannotSign.secret (by decide +kernel)
  | resend _ _ _ _ _ cannotSign => exact cannotSign.secret (by decide +kernel)

omit [Crypto] in
theorem length_preparedHash : (FourPeers.valueHash 9).length = 32 := rfl

open FourPeers in
/-- A ROUND-CHANGE for the second round of a peer that reports a value prepared in the first. -/
def preparedChange (peerIdx : Nat) : QBFTMsg :=
  { changeTo peerIdx 2 second_pos with
    preparedRound := 1
    preparedValueHash := valueHash 9
    preparedRound_le := second_pos
    length_preparedValueHash := length_preparedHash }

open FourPeers in
/-- A PRE-PREPARE of the second leader with a quorum of ROUND-CHANGE messages, one of them
prepared, and no PREPARE. -/
def unpreparedProposal : QBFTConsensusMsg where
  msg := vote .prePrepare 1 2 9
  justification := [changeTo 0 2, preparedChange 1, changeTo 2 2]

omit [Crypto] in
/-- A message within the limits makes a fresh instance raise. -/
theorem unpreparedProposal_raises :
    letI := constantCrypto
    verifyMsgLimits unpreparedProposal FourPeers.definition.nodes = .ok () ∧
      (∀ j ∈ votes unpreparedProposal, j.peerIdx < FourPeers.definition.nodes) ∧
      ¬ ∃ sent, ((FourPeers.fresh 0).handleMessage unpreparedProposal).1 = .ok sent := by
  refine ⟨by decide, by decide, ?_⟩
  rintro ⟨sent, returned⟩
  have raised : (@handleMessage constantCrypto (FourPeers.fresh 0) unpreparedProposal).1 =
      .error (.valueError "max() iterable argument is empty") := rfl
  rw [raised] at returned
  cases returned

end QBFTConsensus

end DvSpec.Consensus
