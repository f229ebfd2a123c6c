import DvSpec.Consensus.Certificates
import DvSpec.Consensus.Emission

/-!
# The size of what an instance sends

Receivers bound the justification of a message by twice the number of nodes.  The
justifications an instance sends are tallies over its buffer, so they respect the
bound as long as the tallies that trigger its rules do.
-/

namespace DvSpec.Consensus

open DvSpec.Library

namespace QBFTConsensus

variable [Crypto] {s : QBFTConsensus} {consensusMsg : QBFTConsensusMsg}

/-- The ROUND-CHANGE messages for a round that report nothing beyond a prepared round. -/
def changesUpTo (pr round : Nat) (messages : List QBFTMsg) : List QBFTMsg :=
  (roundChangesFor round messages).filter fun rc => rc.preparedRound ≤ pr

/-- The tallies with which a message can trigger an unrecorded rule fit into a
justification. -/
structure TalliesFit (s : QBFTConsensus) (consensusMsg : QBFTConsensusMsg) : Prop where
  prepares : consensusMsg.msg.type = .prepare → consensusMsg.msg.round = s.round →
    s.dedupRules.contains (.quorumPrepares, s.round) = false →
    (votesFor .prepare s.round consensusMsg.msg.valueHash
      (s.received consensusMsg).allMsg).length ≤ 2 * s.d.nodes
  commits : consensusMsg.msg.type = .commit → consensusMsg.msg.round = s.round →
    s.dedupRules.contains (.quorumCommits, s.round) = false →
    (votesFor .commit s.round consensusMsg.msg.valueHash
      (s.received consensusMsg).allMsg).length ≤ 2 * s.d.nodes
  nullChanges : consensusMsg.msg.type = .roundChange → consensusMsg.msg.round = s.round →
    s.dedupRules.contains (.quorumRoundChanges, s.round) = false →
    s.d.leader s.duty s.round = s.peer →
    (nullChangesFor s.round (s.received consensusMsg).allMsg).length ≤ 2 * s.d.nodes
  preparedChanges : consensusMsg.msg.type = .roundChange → consensusMsg.msg.round = s.round →
    s.dedupRules.contains (.quorumRoundChanges, s.round) = false →
    s.d.leader s.duty s.round = s.peer →
    (nullChangesFor s.round (s.received consensusMsg).allMsg).length < s.d.quorum →
    ∀ pr pv,
      s.d.quorum ≤
        (senders (votesFor .prepare pr (some pv) (s.received consensusMsg).allMsg)).card →
      s.d.quorum ≤ (senders (changesUpTo pr s.round (s.received consensusMsg).allMsg)).card →
      (senders (changesUpTo pr s.round (s.received consensusMsg).allMsg)).card +
          (senders (votesFor .prepare pr (some pv) (s.received consensusMsg).allMsg)).card ≤
        2 * s.d.nodes

/-- Every accepted message of the event triggers rules with fitting tallies only. -/
def TriggersFit (s : QBFTConsensus) (event : Event) : Prop :=
  ∀ consensusMsg, event = .receive consensusMsg → s.Accepts consensusMsg →
    s.TalliesFit consensusMsg

/-- The stored justifications fit into a message. -/
structure StoredFit (s : QBFTConsensus) : Prop where
  qCommit : s.qCommit.length ≤ 2 * s.d.nodes
  preparedJustification : s.preparedJustification.length ≤ 2 * s.d.nodes

theorem Effect.storedFit {event : Event} {outcome : Outcome} (effect : s.Effect event outcome)
    (stored : s.StoredFit) (fit : s.TriggersFit event) : outcome.2.StoredFit := by
  have config := effect.sameConfig
  constructor
  · rw [config.d]
    rcases effect.qCommit with same | ⟨consensusMsg, rule, rfl, deciding, fires⟩
    · rw [same]
      exact stored.qCommit
    · have tallies := fit consensusMsg rfl fires.toAccepts
      rcases deciding with rfl | rfl
      · obtain ⟨type, current, chosen, -⟩ := fires.classified
        rw [chosen]
        exact tallies.commits type current fires.fresh
      · rw [fires.classified.2]
        exact (verifyMsgLimits_eq_ok_iff.mp fires.limits).1
  · rw [config.d]
    rcases effect.preparedState with ⟨-, -, same⟩ | ⟨consensusMsg, rfl, fires, -⟩
    · rw [same]
      exact stored.preparedJustification
    · have tallies := fit consensusMsg rfl fires.toAccepts
      obtain ⟨type, current, chosen, -⟩ := fires.classified
      rw [chosen]
      exact tallies.prepares type current fires.fresh

omit [Crypto] in
/-- Messages of distinct senders are at most as many as the senders among which they are. -/
theorem length_le_card_senders {messages among : List QBFTMsg}
    (distinct : (messages.map QBFTMsg.peerIdx).Nodup) (included : messages ⊆ among) :
    messages.length ≤ (senders among).card :=
  calc messages.length = (senders messages).card := (card_voters_of_nodup _ distinct).symm
    _ ≤ (senders among).card := Finset.card_le_card (senders_mono included)

/-- The quorum with which the leader proposes fits into a message. -/
theorem Fires.justified_fits {justified : List QBFTMsg}
    (fires : s.Fires consensusMsg .quorumRoundChanges justified)
    (fit : s.TalliesFit consensusMsg) : justified.length ≤ 2 * s.d.nodes := by
  obtain ⟨type, current, found, -, leader⟩ := fires.classified
  rcases justifiedQrc_cases found with ⟨rfl, -⟩ | ⟨few, pr, pv, changes, prepares, rfl, spec⟩
  · exact fit.nullChanges type current fires.fresh leader
  · have fewChanges : changes.length ≤
        (senders (changesUpTo pr s.round (s.received consensusMsg).allMsg)).card :=
      length_le_card_senders spec.changes_distinct fun rc member =>
        List.mem_filter.mpr
          ⟨(spec.mem_changes rc member).1, decide_eq_true (spec.mem_changes rc member).2⟩
    have fewPrepares : prepares.length ≤
        (senders (votesFor .prepare pr (some pv) (s.received consensusMsg).allMsg)).card :=
      length_le_card_senders spec.prepares_distinct spec.mem_prepares
    have bounded := fit.preparedChanges type current fires.fresh leader few pr pv
      (Nat.le_trans spec.prepares_quorum fewPrepares)
      (Nat.le_trans spec.changes_quorum fewChanges)
    rw [List.length_append]
    omega

/-- An event sends only messages that every receiver with this definition admits. -/
theorem sentAt_withinLimits {point : QBFTConsensus × Event} (stored : point.1.StoredFit)
    (fit : point.1.TriggersFit point.2) {copy : QBFTConsensusMsg} (member : copy ∈ sentAt point) :
    verifyMsgLimits copy point.1.d.nodes = .ok () := by
  have values := (point.1.step_effect point.2).length_values_le member
  rw [verifyMsgLimits_eq_ok_iff]
  refine ⟨?_, by omega⟩
  cases sends_of_mem_sentAt member with
  | decided _ _ _ _ _ _ justification =>
      rw [justification]
      exact stored.qCommit
  | prepare _ _ _ _ _ _ justification =>
      rw [justification]
      exact Nat.zero_le _
  | commit _ _ _ _ _ _ _ justification =>
      rw [justification]
      exact Nat.zero_le _
  | roundChange _ _ _ _ justification =>
      rw [justification]
      exact stored.preparedJustification
  | prePrepare consensusMsg received justified fires _ _ _ justification =>
      rw [justification]
      exact fires.justified_fits (fit consensusMsg received fires.toAccepts)

/-- In a run whose triggering tallies all fit, every message sent is within the limits. -/
theorem trace_withinLimits (d : Definition) (t : Transport) (duty : Duty) (peer : Nat)
    (proposalValue : Bytes) (events : List Event)
    (fit : Machine.Along step TriggersFit (new d t duty peer proposalValue) events) :
    ∀ point ∈ Machine.trace step (new d t duty peer proposalValue) events,
      ∀ copy ∈ sentAt point, verifyMsgLimits copy d.nodes = .ok () := by
  have stored : ∀ point ∈ Machine.trace step (new d t duty peer proposalValue) events,
      point.1.StoredFit ∧ point.1.d = d :=
    Machine.trace_invariant (I := fun s => s.StoredFit ∧ s.d = d)
      (fun state event holds fits =>
        ⟨(state.step_effect event).storedFit holds.1 fits,
          (state.step_sameConfig event).d.trans holds.2⟩)
      ⟨⟨Nat.zero_le _, Nat.zero_le _⟩, rfl⟩ fit
  intro point member copy sent
  obtain ⟨fits, same⟩ := stored point member
  have within := sentAt_withinLimits fits (fit point member) sent
  rw [same] at within
  exact within

/-! ## What is sent exactly -/

/-- What a message makes the instance send fits into a message: the COMMITs of a repeated
decision, the stored justification of an announced round, and the justified quorum of a
proposal. -/
structure SendsFit (s : QBFTConsensus) (consensusMsg : QBFTConsensusMsg) : Prop where
  decided : ∀ firstCommit valueHash, s.DecidedOn firstCommit valueHash →
    s.AsksForDecision consensusMsg → s.Permits consensusMsg.msg.peerIdx consensusMsg.msg.round →
    s.qCommit.length ≤ 2 * s.d.nodes
  roundChange : s.Triggers consensusMsg .fPlus1RoundChanges → ¬ s.PreparedNothing →
    s.preparedJustification.length ≤ 2 * s.d.nodes
  prePrepare : s.Triggers consensusMsg .quorumRoundChanges →
    ∀ justified, (s.received consensusMsg).justifiedQrc s.round = some justified →
      justified.length ≤ 2 * s.d.nodes

/-- The justification alone decides, since at most one value is attached. -/
theorem Emitted.withinLimits_iff {msgType : MsgType} {hash : Option Bytes}
    {justification : List QBFTMsg} {copy : QBFTConsensusMsg}
    (emitted : s.Emitted consensusMsg msgType hash justification copy) (nodes : Nat) :
    verifyMsgLimits copy nodes = .ok () ↔ justification.length ≤ 2 * nodes := by
  have attached := (s.storeValues consensusMsg.values).t.length_knownValue_le hash
  rw [verifyMsgLimits_eq_ok_iff, emitted.justification, emitted.values]
  exact and_iff_left (by omega)

theorem forall_emits_iff :
    (∀ msgType hash justification, s.Emits consensusMsg msgType hash justification →
      justification.length ≤ 2 * s.d.nodes) ↔ s.SendsFit consensusMsg := by
  constructor
  · intro fits
    constructor
    · intro firstCommit valueHash decided asks permits
      exact fits _ _ _ (.decided decided asks permits)
    · intro triggers announced
      exact fits _ _ _ (.roundChange triggers announced)
    · intro triggers justified found
      obtain ⟨justification, result⟩ := triggers.classify
      obtain ⟨-, -, chosen, -⟩ := classified_of_classify (by decide) result
      have same : justification = justified := Option.some.inj (chosen.symm.trans found)
      exact same ▸ fits _ _ _ (.prePrepare triggers result)
  · intro fits msgType hash justification emits
    cases emits with
    | prePrepare triggers result =>
        obtain ⟨-, -, chosen, -⟩ := classified_of_classify (by decide) result
        exact fits.prePrepare triggers _ chosen
    | prepare => exact Nat.zero_le _
    | commit => exact Nat.zero_le _
    | roundChange triggers announced => exact fits.roundChange triggers announced
    | decided decided asks permits => exact fits.decided _ _ decided asks permits

/-- Every answer is within the limits exactly when what an instance that can send sends fits. -/
theorem answers_withinLimits_iff (steady : s.Steady) :
    (∀ copy ∈ outgoing (s.handleMessage consensusMsg).1,
        verifyMsgLimits copy s.d.nodes = .ok ()) ↔
      (s.t.CanSend → s.SendsFit consensusMsg) := by
  rw [← forall_emits_iff]
  exact forall_sent_iff steady fun _ _ _ _ _ emitted => emitted.withinLimits_iff _

/-- In a run whose triggering tallies all fit, every message sent is within the limits; the
answers to received messages are so exactly when everything that the instance can send fits. -/
theorem run_withinLimits (d : Definition) (t : Transport) (duty : Duty) (peer : Nat)
    (proposalValue : Bytes) (events : List Event) :
    (Machine.Along step TriggersFit (new d t duty peer proposalValue) events →
      ∀ point ∈ Machine.trace step (new d t duty peer proposalValue) events,
        ∀ copy ∈ sentAt point, verifyMsgLimits copy d.nodes = .ok ()) ∧
    (0 < d.nodes →
      (Machine.Along step
          (fun s event => ∀ consensusMsg, event = .receive consensusMsg →
            ∀ copy ∈ outgoing (s.handleMessage consensusMsg).1,
              verifyMsgLimits copy d.nodes = .ok ())
          (new d t duty peer proposalValue) events ↔
        Machine.Along step
          (fun s event => ∀ consensusMsg, event = .receive consensusMsg →
            s.t.CanSend → s.SendsFit consensusMsg)
          (new d t duty peer proposalValue) events)) := by
  refine ⟨trace_withinLimits d t duty peer proposalValue events, fun nodes => ?_⟩
  apply Machine.along_congr (I := fun s => s.Steady ∧ s.d = d)
  · exact fun state event holds =>
      ⟨holds.1.step event, (state.step_sameConfig event).d.trans holds.2⟩
  · rintro state event ⟨steady, rfl⟩
    exact forall_congr' fun _ => imp_congr_right fun _ => answers_withinLimits_iff steady
  · exact ⟨steady_new nodes t duty peer proposalValue, rfl⟩

theorem talliesFit_of_prepare (type : consensusMsg.msg.type = .prepare)
    (few : (votesFor .prepare s.round consensusMsg.msg.valueHash
      (s.received consensusMsg).allMsg).length ≤ 2 * s.d.nodes) : s.TalliesFit consensusMsg := by
  constructor
  · exact fun _ _ _ => few
  · intro other
    cases type.symm.trans other
  · intro other
    cases type.symm.trans other
  · intro other
    cases type.symm.trans other

omit [Crypto] in
/-- The COMMIT of peer 3 after the PREPAREs of the three other peers. -/
theorem run_withinLimits_fourPeers :
    letI := constantCrypto
    let prepares := [0, 1, 2].map fun peerIdx =>
      FourPeers.receive (FourPeers.vote .prepare peerIdx 1 9)
    let start := new FourPeers.definition FourPeers.transport FourPeers.attesterDuty 3 [7]
    (∀ point ∈ Machine.trace step start prepares,
        ∀ copy ∈ sentAt point, verifyMsgLimits copy FourPeers.definition.nodes = .ok ()) ∧
      Machine.Along step
        (fun s event => ∀ consensusMsg, event = .receive consensusMsg →
          s.t.CanSend → s.SendsFit consensusMsg) start prepares := by
  let := constantCrypto
  intro prepares start
  have limits := run_withinLimits FourPeers.definition FourPeers.transport FourPeers.attesterDuty
    3 [7] prepares
  have within := limits.1 (by
    refine Machine.along_cons.mpr ⟨?_, Machine.along_cons.mpr ⟨?_, Machine.along_cons.mpr
      ⟨?_, Machine.along_nil⟩⟩⟩
    · rintro _ ⟨⟩ _
      exact talliesFit_of_prepare rfl (by decide +kernel)
    · rintro _ ⟨⟩ _
      exact talliesFit_of_prepare rfl (by decide +kernel)
    · rintro _ ⟨⟩ _
      exact talliesFit_of_prepare rfl (by decide +kernel))
  refine ⟨within, (limits.2 (by decide)).mp ?_⟩
  intro point member consensusMsg received copy sent
  exact within point member copy (by rw [sentAt, received]; exact sent)

/-- Eight deliveries of one ROUND-CHANGE and one of another peer, which carry peer 1 to
the round it leads. -/
def redeliveredChange : List QBFTConsensusMsg :=
  List.replicate 8 { msg := FourPeers.changeTo 0 2 } ++ [{ msg := FourPeers.changeTo 2 2 }]

omit [Crypto] in
/-- The leader then justifies its PRE-PREPARE with ten ROUND-CHANGE messages, two more
than any receiver admits. -/
theorem redeliveredChange_exceedsLimits :
    letI := constantCrypto
    let last : QBFTConsensusMsg := { msg := FourPeers.changeTo 3 2 }
    (∀ consensusMsg ∈ redeliveredChange ++ [last],
        verifyMsgLimits consensusMsg FourPeers.definition.nodes = .ok ()) ∧
      ¬ ∀ copy ∈ outgoing ((Machine.final step (FourPeers.fresh 1)
          (redeliveredChange.map .receive)).handleMessage last).1,
        verifyMsgLimits copy FourPeers.definition.nodes = .ok () := by
  decide +kernel

end QBFTConsensus

end DvSpec.Consensus
