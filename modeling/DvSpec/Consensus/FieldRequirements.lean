import DvSpec.Consensus.Emission
import DvSpec.Consensus.RoundChangeQuorum

/-!
# Field requirements of sent messages

A PRE-PREPARE never announces a prepared round, also where it proposes a prepared
value; it is sent in the first round too, and votes repeat whatever hash was
received.  ROUND-CHANGEs always meet the requirements.
-/

namespace DvSpec.Consensus

open DvSpec.Library

/-- A value hash is present and not the zero hash. -/
structure NonZero (valueHash : Option Bytes) : Prop where
  present : valueHash ≠ none
  nonzero : valueHash ≠ some zeroHash

/-- A PRE-PREPARE over null-prepared ROUND-CHANGEs announces nothing prepared (J1). -/
structure ProposesUnprepared (copy : QBFTConsensusMsg) : Prop where
  round : copy.msg.preparedRound = 0
  hash : copy.msg.preparedValueHash = zeroHash
  justification : AllNonePrepared copy.msg.round copy.justification

/-- A PRE-PREPARE announces and proposes what its justification prepared last (J2). -/
structure ProposesPrepared (copy : QBFTConsensusMsg) : Prop where
  highest : FirstHighest copy.justification copy.msg.preparedRound copy.msg.preparedValueHash
  valueHash : copy.msg.valueHash = some copy.msg.preparedValueHash

/-- The required fields of every type of message. -/
structure MeetsRequirements (copy : QBFTConsensusMsg) : Prop where
  value : copy.msg.type ≠ .roundChange → NonZero copy.msg.valueHash
  first : copy.msg.type = .prePrepare → copy.msg.round = 1 → copy.justification = []
  later : copy.msg.type = .prePrepare → 1 < copy.msg.round →
    ProposesUnprepared copy ∨ ProposesPrepared copy
  unprepared : copy.msg.type = .roundChange → copy.msg.preparedRound = 0 →
    copy.msg.preparedValueHash = zeroHash ∧ copy.justification = []
  prepared : copy.msg.type = .roundChange → 0 < copy.msg.preparedRound →
    copy.msg.preparedValueHash ≠ zeroHash

instance (valueHash : Option Bytes) : Decidable (NonZero valueHash) :=
  decidable_of_iff (valueHash ≠ none ∧ valueHash ≠ some zeroHash)
    ⟨fun both => ⟨both.1, both.2⟩, fun both => ⟨both.present, both.nonzero⟩⟩

instance (round : Nat) (justification : List QBFTMsg) :
    Decidable (AllNonePrepared round justification) :=
  inferInstanceAs (Decidable (∀ rc ∈ roundChangesFor round justification, rc.nonePrepared = true))

instance (messages : List QBFTMsg) (pr : Nat) (pv : Bytes) :
    Decidable (FirstHighest messages pr pv) :=
  inferInstanceAs (Decidable ((messages.filterMap prepareKey).argmax Prod.fst = some (pr, pv)))

instance (copy : QBFTConsensusMsg) : Decidable (ProposesUnprepared copy) :=
  decidable_of_iff (copy.msg.preparedRound = 0 ∧ copy.msg.preparedValueHash = zeroHash ∧
      AllNonePrepared copy.msg.round copy.justification)
    ⟨fun all => ⟨all.1, all.2.1, all.2.2⟩, fun all => ⟨all.round, all.hash, all.justification⟩⟩

instance (copy : QBFTConsensusMsg) : Decidable (ProposesPrepared copy) :=
  decidable_of_iff
    (FirstHighest copy.justification copy.msg.preparedRound copy.msg.preparedValueHash ∧
      copy.msg.valueHash = some copy.msg.preparedValueHash)
    ⟨fun both => ⟨both.1, both.2⟩, fun both => ⟨both.highest, both.valueHash⟩⟩

instance (copy : QBFTConsensusMsg) : Decidable (MeetsRequirements copy) :=
  decidable_of_iff
    ((copy.msg.type ≠ .roundChange → NonZero copy.msg.valueHash) ∧
      (copy.msg.type = .prePrepare → copy.msg.round = 1 → copy.justification = []) ∧
      (copy.msg.type = .prePrepare → 1 < copy.msg.round →
        ProposesUnprepared copy ∨ ProposesPrepared copy) ∧
      (copy.msg.type = .roundChange → copy.msg.preparedRound = 0 →
        copy.msg.preparedValueHash = zeroHash ∧ copy.justification = []) ∧
      (copy.msg.type = .roundChange → 0 < copy.msg.preparedRound →
        copy.msg.preparedValueHash ≠ zeroHash))
    ⟨fun all => ⟨all.1, all.2.1, all.2.2.1, all.2.2.2.1, all.2.2.2.2⟩,
      fun all => ⟨all.value, all.first, all.later, all.unprepared, all.prepared⟩⟩

theorem FirstHighest.round_pos {messages : List QBFTMsg} {pr : Nat} {pv : Bytes}
    (highest : FirstHighest messages pr pv) : 1 ≤ pr := by
  obtain ⟨j, -, keyed⟩ := List.mem_filterMap.mp (List.argmax_mem highest)
  unfold prepareKey at keyed
  split at keyed
  · obtain ⟨valueHash, -, same⟩ := Option.map_eq_some_iff.mp keyed
    cases same
    exact j.round_pos
  · cases keyed

/-- Nothing but a PRE-PREPARE over null-prepared ROUND-CHANGEs meets the requirements when the
announced prepared round is zero. -/
theorem proposesUnprepared_of_zero {copy : QBFTConsensusMsg} (meets : MeetsRequirements copy)
    (type : copy.msg.type = .prePrepare) (later : 1 < copy.msg.round)
    (round : copy.msg.preparedRound = 0) : ProposesUnprepared copy := by
  rcases meets.later type later with unprepared | ⟨highest, -⟩
  · exact unprepared
  · rw [round] at highest
    exact absurd highest.round_pos (Nat.not_succ_le_zero 0)

namespace QBFTConsensus

variable [Crypto]

/-- What is handed to a broadcast makes a message that meets the requirements: a PRE-PREPARE
in a later round without PREPAREs, for a proposal whose hash is not zero, a vote for a hash
that is not zero, or a ROUND-CHANGE. -/
def Compliant (s : QBFTConsensus) (msgType : MsgType) (hash : Option Bytes)
    (justification : List QBFTMsg) : Prop :=
  match msgType with
  | .prePrepare => s.round ≠ 1 ∧ (∀ j ∈ justification, j.type ≠ .prepare) ∧
      hashValue s.proposalValue ≠ zeroHash
  | .roundChange => True
  | .prepare => hash ≠ some zeroHash
  | .commit => hash ≠ some zeroHash
  | .decided => hash ≠ some zeroHash

variable {s : QBFTConsensus} {consensusMsg copy : QBFTConsensusMsg}

/-- A vote only needs a hash that is not zero. -/
theorem meetsRequirements_vote {msgType : MsgType} {valueHash : Bytes}
    {justification : List QBFTMsg}
    (vote : msgType = .prepare ∨ msgType = .commit ∨ msgType = .decided)
    (emitted : s.Emitted consensusMsg msgType (some valueHash) justification copy) :
    MeetsRequirements copy ↔ some valueHash ≠ some zeroHash := by
  have notChange : msgType ≠ .roundChange := by
    rintro rfl
    simp at vote
  have notProposal : msgType ≠ .prePrepare := by
    rintro rfl
    simp at vote
  have hashed := emitted.valueHash
  rw [if_neg notChange] at hashed
  have type := emitted.type
  constructor
  · intro meets
    rw [← hashed]
    exact (meets.value (type ▸ notChange)).nonzero
  · intro nonzero
    constructor
    · intro _
      rw [hashed]
      exact ⟨Option.some_ne_none _, nonzero⟩
    · exact fun other => absurd (type.symm.trans other) notProposal
    · exact fun other => absurd (type.symm.trans other) notProposal
    · exact fun other => absurd (type.symm.trans other) notChange
    · exact fun other => absurd (type.symm.trans other) notChange

/-- A sent ROUND-CHANGE always meets the requirements. -/
theorem meetsRequirements_roundChange (prepared : s.PreparedJustified)
    (emitted : s.Emitted consensusMsg .roundChange s.preparedValueHash s.preparedJustification
      copy) : MeetsRequirements copy := by
  have type := emitted.type
  have round := emitted.preparedRound
  rw [if_pos rfl] at round
  constructor
  · exact fun other => absurd type other
  · exact fun other => by cases type.symm.trans other
  · exact fun other => by cases type.symm.trans other
  · intro _ none
    refine ⟨emitted.consistent.mp none, ?_⟩
    rw [emitted.justification]
    rcases prepared with ⟨-, -, empty⟩ | ⟨pr, stored, -, votes⟩
    · exact empty
    · -- the votes for a stored round have a positive round
      refine List.eq_nil_iff_forall_not_mem.mpr fun j member => ?_
      have same := (votes j member).2.1
      have positive := j.round_pos
      rw [stored, Option.getD_some, none] at round
      omega
  · intro _ some zero
    exact absurd (emitted.consistent.mpr zero) (Nat.ne_of_gt some)

/-- A PRE-PREPARE over null-prepared ROUND-CHANGEs needs a later round and a proposal whose hash
is not zero. -/
theorem meetsRequirements_unprepared {justification : List QBFTMsg} {messages : List QBFTMsg}
    (chosen : justification = nullChangesFor s.round messages) (nonempty : justification ≠ [])
    (emitted : s.Emitted consensusMsg .prePrepare (some (hashValue s.proposalValue)) justification
      copy) :
    MeetsRequirements copy ↔ s.round ≠ 1 ∧ hashValue s.proposalValue ≠ zeroHash := by
  have type := emitted.type
  have current := emitted.round rfl
  have hashed : copy.msg.valueHash = some (hashValue s.proposalValue) := emitted.valueHash
  constructor
  · intro meets
    have nonzero := (meets.value (by rw [type]; decide)).nonzero
    rw [hashed] at nonzero
    refine ⟨fun one => nonempty ?_, fun zero => nonzero (congrArg _ zero)⟩
    rw [← emitted.justification]
    exact meets.first type (current.trans one)
  · rintro ⟨later, nonzero⟩
    constructor
    · intro _
      rw [hashed]
      exact ⟨Option.some_ne_none _, fun same => nonzero (Option.some.inj same)⟩
    · exact fun _ one => absurd (current.symm.trans one) later
    · refine fun _ _ =>
        Or.inl ⟨emitted.preparedRound, emitted.preparedValueHash, fun rc member => ?_⟩
      rw [emitted.justification, chosen] at member
      exact (mem_nullChangesFor.mp (mem_roundChangesFor.mp member).1).2.2.2
    · exact fun other => by cases type.symm.trans other
    · exact fun other => by cases type.symm.trans other

/-- A PRE-PREPARE over a prepare quorum never meets the requirements. -/
theorem not_meetsRequirements_prepared {messages changes prepares : List QBFTMsg} {pr : Nat}
    {pv : Bytes} {hash : Option Bytes} {quorum : Nat}
    (spec : PreparedQrc quorum s.round messages pr pv changes prepares)
    (emitted : s.Emitted consensusMsg .prePrepare hash (changes ++ prepares) copy)
    (round : 1 ≤ s.round) : ¬ MeetsRequirements copy := by
  intro meets
  have current := emitted.round rfl
  obtain ⟨m, vote⟩ := List.exists_mem_of_ne_nil _ spec.prepares_ne_nil
  by_cases one : s.round = 1
  · have empty := meets.first emitted.type (current.trans one)
    rw [emitted.justification] at empty
    exact spec.prepares_ne_nil (List.append_eq_nil_iff.mp empty).2
  · -- one of the ROUND-CHANGEs reports the round of the PREPAREs
    obtain ⟨rc, change, reported, -⟩ := spec.highest
    have unprepared := (proposesUnprepared_of_zero meets emitted.type (by omega)
      emitted.preparedRound).justification
    rw [current, emitted.justification] at unprepared
    have member : rc ∈ roundChangesFor s.round (changes ++ prepares) :=
      mem_roundChangesFor.mpr ⟨List.mem_append_left _ change,
        (mem_roundChangesFor.mp (spec.mem_changes rc change).1).2⟩
    have none := (QBFTMsg.nonePrepared_iff.mp (unprepared rc member)).1
    have voted := (mem_votesFor.mp (spec.mem_prepares m vote)).2.2.1
    have positive := m.round_pos
    omega

/-- A sent PRE-PREPARE meets the requirements in a later round, over null-prepared
ROUND-CHANGEs, for a proposal whose hash is not zero. -/
theorem meetsRequirements_prePrepare {justification : List QBFTMsg} (positive : 0 < s.d.quorum)
    (round : 1 ≤ s.round)
    (found : (s.received consensusMsg).justifiedQrc s.round = some justification)
    (emitted : s.Emitted consensusMsg .prePrepare (some (s.proposedHash justification))
      justification copy) :
    MeetsRequirements copy ↔
      s.Compliant .prePrepare (some (s.proposedHash justification)) justification := by
  rcases justifiedQrc_cases found with
    ⟨chosen, enough⟩ | ⟨-, pr, pv, changes, prepares, rfl, spec⟩
  · have own : s.proposedHash justification = hashValue s.proposalValue := by
      rw [proposedHash, chosen, highestPrepared_nullChanges]
    have unprepared : ∀ j ∈ justification, j.type ≠ .prepare := by
      intro j member prepare
      rw [chosen] at member
      cases (mem_nullChangesFor.mp member).2.1.symm.trans prepare
    rw [own] at emitted
    rw [meetsRequirements_unprepared chosen
      (List.ne_nil_of_length_pos (Nat.lt_of_lt_of_le positive enough)) emitted]
    exact ⟨fun both => ⟨both.1, unprepared, both.2⟩, fun all => ⟨all.1, all.2.2⟩⟩
  · obtain ⟨m, vote⟩ := List.exists_mem_of_ne_nil _ spec.prepares_ne_nil
    refine iff_of_false (not_meetsRequirements_prepared spec emitted round) fun compliant => ?_
    exact compliant.2.1 m (List.mem_append_right _ vote)
      (mem_votesFor.mp (spec.mem_prepares m vote)).2.1

/-- What was emitted decides whether a sent message meets the requirements. -/
theorem meetsRequirements_iff (steady : s.Steady) {msgType : MsgType} {hash : Option Bytes}
    {justification : List QBFTMsg} (emits : s.Emits consensusMsg msgType hash justification)
    (emitted : s.Emitted consensusMsg msgType hash justification copy) :
    MeetsRequirements copy ↔ s.Compliant msgType hash justification := by
  cases emits with
  | prePrepare triggers result =>
      obtain ⟨-, -, found, nodes, -⟩ := classified_of_classify (by decide) result
      exact meetsRequirements_prePrepare (Definition.quorum_pos nodes) steady.round found emitted
  | prepare => exact meetsRequirements_vote (Or.inl rfl) emitted
  | commit => exact meetsRequirements_vote (Or.inr (Or.inl rfl)) emitted
  | decided => exact meetsRequirements_vote (Or.inr (Or.inr rfl)) emitted
  | roundChange =>
      exact iff_of_true (meetsRequirements_roundChange steady.prepared emitted) trivial

/-- In every run, all the messages that handled messages are answered with meet the requirements
of their types exactly when everything that the instance can send is compliant. -/
theorem run_meetsRequirements_iff {d : Definition} (nodes : 0 < d.nodes) (t : Transport)
    (duty : Duty) (peer : Nat) (proposalValue : Bytes) (events : List Event) :
    Machine.Along step
        (fun s event => ∀ consensusMsg, event = .receive consensusMsg →
          ∀ copy ∈ outgoing (s.handleMessage consensusMsg).1, MeetsRequirements copy)
        (new d t duty peer proposalValue) events ↔
      Machine.Along step
        (fun s event => ∀ consensusMsg, event = .receive consensusMsg → s.t.CanSend →
          ∀ msgType hash justification, s.Emits consensusMsg msgType hash justification →
            s.Compliant msgType hash justification)
        (new d t duty peer proposalValue) events :=
  Machine.along_congr (fun _ event steady => steady.step event)
    (fun _ _ steady => forall_congr' fun _ => imp_congr_right fun _ =>
      forall_sent_iff steady fun _ _ _ emits _ emitted =>
        meetsRequirements_iff steady emits emitted)
    (steady_new nodes t duty peer proposalValue)

open FourPeers in
omit [Crypto] in
/-- Peer 1 announces the second round and proposes in it over three null-prepared peers. -/
theorem run_meetsRequirements_unprepared :
    letI := constantCrypto
    Machine.Along step
      (fun s event => ∀ consensusMsg, event = .receive consensusMsg → s.t.CanSend →
        ∀ msgType hash justification, s.Emits consensusMsg msgType hash justification →
          s.Compliant msgType hash justification)
      (new definition transport attesterDuty 1 [7])
      [receive (changeTo 0 2), receive (changeTo 2 2), receive (changeTo 3 2)] := by
  let _ := constantCrypto
  have meets : ∀ point ∈ Machine.trace step (new definition transport attesterDuty 1 [7])
      [receive (changeTo 0 2), receive (changeTo 2 2), receive (changeTo 3 2)],
      ∀ copy ∈ sentAt point, MeetsRequirements copy := by decide +kernel
  refine (run_meetsRequirements_iff (by decide) transport attesterDuty 1 [7] _).mp ?_
  intro point member consensusMsg received copy sent
  exact meets point member copy (by rw [sentAt, received]; exact sent)

open FourPeers in
omit [Crypto] in
/-- Peer 1 proposes the value that peer 2 prepared in the first round and announces no prepared
round. -/
theorem preparedProposal_not_meetsRequirements :
    letI := constantCrypto
    ∃ copy ∈ outgoing ((Machine.final step (new definition transport attesterDuty 1 [7])
        [receive (changeTo 0 2), .receive (changeWithPrepares 2 9)]).handleMessage
          { msg := changeTo 3 2 }).1,
      copy.msg.type = .prePrepare ∧ copy.msg.round = 2 ∧
        FirstHighest copy.justification 1 (valueHash 9) ∧
        copy.msg.preparedRound = 0 ∧ ¬ MeetsRequirements copy := by
  decide +kernel

end QBFTConsensus

end DvSpec.Consensus
