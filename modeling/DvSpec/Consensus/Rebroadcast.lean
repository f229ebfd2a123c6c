import DvSpec.Consensus.Decision

/-!
# What a repeated decision says

The decided value is read back from the first message of the stored certificate.
A COMMIT quorum stores matching COMMITs only, a DECIDED message its whole
justification, whose first message may be for another value.
-/

namespace DvSpec.Consensus

open DvSpec.Library

namespace QBFTConsensus

variable [Crypto] {s : QBFTConsensus} {consensusMsg : QBFTConsensusMsg}

/-- A message for the decided round and value that every instance accepts and that makes
every undecided one for the duty store a certificate led by the value. -/
structure Carries (d : Definition) (duty : Duty) (decision : QBFTMsg) (copy : QBFTConsensusMsg) :
    Prop where
  round : copy.msg.round = decision.round
  valueHash : copy.msg.valueHash = decision.valueHash
  accepted : ∀ other : QBFTConsensus, other.d = d → other.isJustifiedDecided copy = true
  adopted : ∀ (t : Transport) (peer : Nat) (proposalValue : Bytes) (events : List Event),
    (Machine.final step (new d t duty peer proposalValue) events).qCommit = [] →
    ∃ firstCommit, ((Machine.final step (new d t duty peer proposalValue) events).handleMessage
        copy).2.qCommit.head? = some firstCommit ∧
      firstCommit.valueHash = decision.valueHash

/-- A deciding message leaves a certificate from which its value can be read back, and which
fits into a message. -/
def KeepsDecision (s : QBFTConsensus) (consensusMsg : QBFTConsensusMsg) : Prop :=
  match consensusMsg.msg.type with
  | .decided => ∀ firstCommit ∈ consensusMsg.justification.head?,
      firstCommit.valueHash = none ∨ firstCommit.valueHash = consensusMsg.msg.valueHash
  | _ => consensusMsg.msg.valueHash = none ∨
      (votesFor .commit s.round consensusMsg.msg.valueHash
        (s.received consensusMsg).allMsg).length ≤ 2 * s.d.nodes

/-! ## Repeated decisions -/

/-- The message with which a decided instance repeats its decision. -/
structure Repeats (s : QBFTConsensus) (valueHash : Bytes) (copy : QBFTConsensusMsg) : Prop where
  type : copy.msg.type = .decided
  duty : copy.msg.duty = s.duty
  round : copy.msg.round = s.round
  valueHash : copy.msg.valueHash = some valueHash
  justification : copy.justification = s.qCommit
  values : copy.values.length ≤ 2 * (copy.justification.length + 1)
  canSend : s.t.CanSend

theorem repeats_of_sent {firstCommit : QBFTMsg} {valueHash : Bytes}
    (decided : s.DecidedOn firstCommit valueHash) {event : Event} {copy : QBFTConsensusMsg}
    (sent : copy ∈ sentAt (s, event)) : s.Repeats valueHash copy := by
  have values := (s.step_effect event).length_values_le sent
  have canSend : s.t.CanSend := by
    cases event with
    | timeout =>
        unfold sentAt at sent
        rw [decided.timeout] at sent
        cases sent
    | receive consensusMsg =>
        exact ((answers_iff decided).mp (List.ne_nil_of_mem sent)).2.1
  cases sends_of_mem_sentAt sent with
  | decided answered more qCommit repeated known built justification =>
      have first := decided.qCommit
      rw [qCommit] at first
      obtain rfl := Option.some.inj first
      obtain rfl := Option.some.inj (known.symm.trans decided.known)
      exact ⟨built.type_eq, built.duty_eq, built.round_eq, built.valueHash_eq, justification,
        by omega, canSend⟩
  | prepare _ _ fires => exact absurd fires.undecided decided.ne_nil
  | commit _ _ _ fires => exact absurd fires.undecided decided.ne_nil
  | roundChange undecided => exact absurd undecided.1 decided.ne_nil
  | prePrepare _ _ _ fires => exact absurd fires.undecided decided.ne_nil

/-! ## From the condition to the property -/

/-- What a deciding step has left when its decision is repeated. -/
structure Concludes (s : QBFTConsensus) (consensusMsg : QBFTConsensusMsg) (u : QBFTConsensus) :
    Prop where
  accepts : s.Accepts consensusMsg
  round : u.round = consensusMsg.msg.round
  writes : s.Writes consensusMsg u.qCommit
  config : SameConfig s u

theorem Concludes.step {u : QBFTConsensus} (concludes : s.Concludes consensusMsg u)
    (decided : u.qCommit ≠ []) (event : Event) :
    s.Concludes consensusMsg (u.step event).2 := by
  have still : SameDecision u (u.step event).2 :=
    SameDecision.step ⟨rfl, rfl, rfl, rfl, rfl, rfl⟩ decided event
  exact ⟨concludes.accepts, still.round.trans concludes.round,
    still.qCommit.symm ▸ concludes.writes, concludes.config.trans (u.step_sameConfig event)⟩

/-- The decision stays as it is in every later state. -/
theorem Concludes.trace {u : QBFTConsensus} (concludes : s.Concludes consensusMsg u)
    (decided : u.qCommit ≠ []) (later : List Event) :
    ∀ point ∈ Machine.trace QBFTConsensus.step u later,
      s.Concludes consensusMsg point.1 ∧ point.1.qCommit ≠ [] :=
  Machine.trace_invariant (C := fun _ _ => True)
    (I := fun u : QBFTConsensus => s.Concludes consensusMsg u ∧ u.qCommit ≠ [])
    (fun u event holds _ => ⟨holds.1.step holds.2 event,
      (u.step_effect event).qCommit_of_decided holds.2 ▸ holds.2⟩)
    ⟨concludes, decided⟩ fun _ _ => trivial

/-- With the condition, the value of the deciding message is repeated and its certificate is
a quorum of matching COMMITs that fits into a message. -/
theorem KeepsDecision.certificate {u : QBFTConsensus} (concludes : s.Concludes consensusMsg u)
    {firstCommit : QBFTMsg} {valueHash : Bytes} (decided : u.DecidedOn firstCommit valueHash)
    (keeps : s.KeepsDecision consensusMsg) :
    consensusMsg.msg.valueHash = some valueHash ∧
      s.d.quorum ≤
        (votesFor .commit consensusMsg.msg.round (some valueHash) u.qCommit).length ∧
      u.qCommit.length ≤ 2 * s.d.nodes := by
  obtain ⟨more, qCommit⟩ := decided.eq_cons
  have member : firstCommit ∈ u.qCommit := by
    rw [qCommit]
    exact List.mem_cons_self
  cases concludes.writes with
  | commits type current tally quorum =>
      have value : consensusMsg.msg.valueHash = some valueHash := by
        rw [tally] at member
        exact (mem_votesFor.mp member).2.2.2.symm.trans decided.known
      have fits : consensusMsg.msg.valueHash = none ∨ (votesFor .commit s.round
          consensusMsg.msg.valueHash (s.received consensusMsg).allMsg).length ≤ 2 * s.d.nodes := by
        unfold KeepsDecision at keeps
        rw [type] at keeps
        exact keeps
      have matching : votesFor .commit consensusMsg.msg.round (some valueHash) u.qCommit =
          u.qCommit := by
        apply votesFor_eq_self
        intro j inside
        rw [tally] at inside
        rw [current, ← value]
        exact (mem_votesFor.mp inside).2
      refine ⟨value, by rw [matching]; exact quorum, ?_⟩
      rw [tally]
      exact fits.resolve_left (by rw [value]; exact Option.some_ne_none _)
  | adopts type justification =>
      have accepts := concludes.accepts
      have justified := accepts.justified
      rw [isJustified_decided type, Except.ok.injEq, isJustifiedDecided_iff] at justified
      have read : ∀ firstCommit ∈ consensusMsg.justification.head?,
          firstCommit.valueHash = none ∨
            firstCommit.valueHash = consensusMsg.msg.valueHash := by
        unfold KeepsDecision at keeps
        rw [type] at keeps
        exact keeps
      have first : consensusMsg.justification.head? = some firstCommit := by
        rw [← justification]
        exact decided.qCommit
      have value : consensusMsg.msg.valueHash = some valueHash := by
        rcases read firstCommit first with missing | same
        · cases decided.known.symm.trans missing
        · exact same.symm.trans decided.known
      rw [justification, ← value]
      exact ⟨rfl, justified.2, (verifyMsgLimits_eq_ok_iff.mp accepts.limits).1⟩

/-- Under the condition every repeated decision carries the decision. -/
theorem KeepsDecision.carries {u : QBFTConsensus} (nodes : 0 < s.d.nodes)
    (concludes : s.Concludes consensusMsg u) {firstCommit : QBFTMsg} {valueHash : Bytes}
    (decided : u.DecidedOn firstCommit valueHash) (keeps : s.KeepsDecision consensusMsg)
    {copy : QBFTConsensusMsg} (repeats : u.Repeats valueHash copy) :
    Carries s.d s.duty consensusMsg.msg copy := by
  obtain ⟨value, quorum, fits⟩ := keeps.certificate concludes decided
  have round : copy.msg.round = consensusMsg.msg.round := repeats.round.trans concludes.round
  have justified : s.d.quorum ≤
      (votesFor .commit copy.msg.round copy.msg.valueHash copy.justification).length := by
    rw [round, repeats.valueHash, repeats.justification]
    exact quorum
  have accepted : ∀ other : QBFTConsensus, other.d = s.d →
      other.isJustifiedDecided copy = true := by
    intro other same
    rw [isJustifiedDecided_iff, same]
    exact ⟨repeats.type, justified⟩
  refine ⟨round, repeats.valueHash.trans value.symm, accepted, ?_⟩
  intro t peer proposalValue events undecided
  have same := final_sameConfig (new s.d t s.duty peer proposalValue) events
  have fresh := decidersFresh_final nodes t s.duty peer proposalValue events
  generalize Machine.final QBFTConsensus.step (new s.d t s.duty peer proposalValue) events =
    other at *
  have limits : verifyMsgLimits copy other.d.nodes = .ok () := by
    rw [verifyMsgLimits_eq_ok_iff, same.d, repeats.justification]
    exact ⟨fits, repeats.justification ▸ repeats.values⟩
  have accepts : other.Accepts copy := by
    refine ⟨limits, ?_, undecided, ?_⟩
    · rw [same.duty, repeats.duty, concludes.config.duty]
      rfl
    · rw [isJustified_decided repeats.type, accepted other same.d]
  refine ⟨firstCommit, ?_, decided.known.trans value.symm⟩
  rw [qCommit_of_decided fresh accepts repeats.type, repeats.justification]
  exact decided.qCommit

/-! ## From the property to the condition -/

/-- A ROUND-CHANGE of a peer for the duty and round of a message. -/
def request (msg : QBFTMsg) (peerIdx : Nat) : QBFTConsensusMsg where
  msg := { msg with type := .roundChange, peerIdx }

/-- An instance that just decided answers the first request. -/
theorem exists_repeats {u : QBFTConsensus} {firstCommit : QBFTMsg} {valueHash : Bytes}
    (decided : u.DecidedOn firstCommit valueHash) (canSend : u.t.CanSend)
    (unanswered : ∀ p, u.resendsOf p = (0, 0)) {msg : QBFTMsg} (duty : msg.duty = u.duty) :
    ∃ copy ∈ sentAt (u, .receive (request msg (u.peer + 1))), u.Repeats valueHash copy := by
  have asks : u.AsksForDecision (request msg (u.peer + 1)) := by
    refine ⟨?_, duty, Nat.succ_ne_self u.peer, rfl⟩
    rw [verifyMsgLimits_eq_ok_iff]
    exact ⟨Nat.zero_le _, Nat.zero_le _⟩
  have permits : u.Permits (u.peer + 1) msg.round := by
    rw [Permits, unanswered]
    exact ⟨msg.round_pos, by decide⟩
  have answers := (answers_iff decided).mpr ⟨asks, canSend, permits⟩
  obtain ⟨copy, member⟩ := List.exists_mem_of_ne_nil _ answers
  exact ⟨copy, member, repeats_of_sent decided member⟩

/-- A repeated decision that carries the decision shows the condition. -/
theorem keepsDecision_of_carries {u : QBFTConsensus}
    (concludes : s.Concludes consensusMsg u) {firstCommit : QBFTMsg} {valueHash : Bytes}
    (decided : u.DecidedOn firstCommit valueHash) {copy : QBFTConsensusMsg}
    (repeats : u.Repeats valueHash copy) (carries : Carries s.d s.duty consensusMsg.msg copy) :
    s.KeepsDecision consensusMsg := by
  unfold KeepsDecision
  cases concludes.writes with
  | adopts type justification =>
      rw [type]
      intro first member
      have same : first = firstCommit := by
        rw [← justification, decided.qCommit] at member
        exact (Option.some.inj member).symm
      right
      rw [same, decided.known, ← repeats.valueHash]
      exact carries.valueHash
  | commits type current tally quorum =>
      rw [type]
      right
      obtain ⟨adoptedCommit, head, -⟩ :=
        carries.adopted u.t 0 [] [] rfl
      have decides : ((new s.d u.t s.duty 0 []).handleMessage copy).2.qCommit ≠ [] := by
        intro none
        rw [Machine.final, none] at head
        cases head
      obtain ⟨accepts, -, -⟩ := writes_of_decides rfl decides
      rw [← tally, ← repeats.justification]
      exact (verifyMsgLimits_eq_ok_iff.mp accepts.limits).1

/-- A certificate led by a message without value hash is never repeated. -/
theorem keepsDecision_of_unknown {u : QBFTConsensus} (concludes : s.Concludes consensusMsg u)
    {firstCommit : QBFTMsg} (first : u.qCommit.head? = some firstCommit)
    (unknown : firstCommit.valueHash = none) : s.KeepsDecision consensusMsg := by
  unfold KeepsDecision
  cases concludes.writes with
  | adopts type justification =>
      rw [type]
      intro head member
      left
      rw [← justification, first] at member
      rw [← Option.some.inj member]
      exact unknown
  | commits type current tally quorum =>
      rw [type]
      left
      have member : firstCommit ∈ u.qCommit := List.mem_of_mem_head? first
      rw [tally] at member
      exact (mem_votesFor.mp member).2.2.2.symm.trans unknown

/-! ## Runs -/

/-- In every run, what an instance repeats after it decided carries the decision exactly when
the deciding step keeps the decision or the instance cannot send. -/
theorem run_rebroadcasts_iff {d : Definition} (nodes : 0 < d.nodes) (t : Transport) (duty : Duty)
    (peer : Nat) (proposalValue : Bytes) (events : List Event) (consensusMsg : QBFTConsensusMsg)
    (undecided : (Machine.final step (new d t duty peer proposalValue) events).qCommit = [])
    (decides : ((Machine.final step (new d t duty peer proposalValue) events).handleMessage
      consensusMsg).2.qCommit ≠ []) :
    (∀ later, ∀ point ∈ Machine.trace step
        ((Machine.final step (new d t duty peer proposalValue) events).handleMessage
          consensusMsg).2 later,
      ∀ copy ∈ sentAt point, copy.msg.type = .decided →
        Carries d duty consensusMsg.msg copy) ↔
      (t.CanSend → (Machine.final step (new d t duty peer proposalValue) events).KeepsDecision
        consensusMsg) := by
  have same := final_sameConfig (new d t duty peer proposalValue) events
  have tracks := fun p => (@tracks_new _ p d t duty peer proposalValue).final events
  generalize Machine.final step (new d t duty peer proposalValue) events = s at *
  obtain ⟨accepts, round, writes⟩ := writes_of_decides undecided decides
  have config := s.step_sameConfig (.receive consensusMsg)
  have resends := decidedResends_step s (.receive consensusMsg) undecided
  change SameConfig s (s.handleMessage consensusMsg).2 at config
  change (s.handleMessage consensusMsg).2.decidedResends = _ at resends
  generalize (s.handleMessage consensusMsg).2 = u at *
  have concludes : s.Concludes consensusMsg u := ⟨accepts, round, writes, config⟩
  have definition : s.d = d := same.d
  have ownDuty : s.duty = duty := same.duty
  have positive : 0 < s.d.nodes := definition ▸ nodes
  have start : (new d t duty peer proposalValue).t.CanSend ↔ t.CanSend :=
    ⟨fun canSend => ⟨canSend.peers, canSend.secret⟩, fun canSend => ⟨canSend.peers, canSend.secret⟩⟩
  rw [← definition, ← ownDuty]
  constructor
  · intro carries canSend
    obtain ⟨firstCommit, more, qCommit⟩ := List.exists_cons_of_ne_nil decides
    have first : u.qCommit.head? = some firstCommit := by
      rw [qCommit]
      rfl
    cases known : firstCommit.valueHash with
    | none => exact keepsDecision_of_unknown concludes first known
    | some valueHash =>
        have decided : u.DecidedOn firstCommit valueHash :=
          ⟨first, known, round ▸ consensusMsg.msg.round_pos⟩
        have unanswered : ∀ p, u.resendsOf p = (0, 0) := by
          intro p
          rw [resendsOf, resends]
          exact ((tracks p).undecided undecided).1
        obtain ⟨copy, member, repeats⟩ :=
          exists_repeats decided ((same.trans config).canSend_iff.mpr (start.mpr canSend)) unanswered
            (accepts.duty.trans config.duty.symm)
        apply keepsDecision_of_carries concludes decided repeats
        exact carries [.receive (request consensusMsg.msg (u.peer + 1))] _ List.mem_cons_self copy member
          repeats.type
  · intro keeps later point member copy sent _
    obtain ⟨stays, decided⟩ := concludes.trace decides later point member
    have positiveRound : 1 ≤ point.1.round := stays.round ▸ consensusMsg.msg.round_pos
    obtain ⟨firstCommit, valueHash, known⟩ :=
      decided_of_answers positiveRound decided (List.ne_nil_of_mem sent)
    have repeats := repeats_of_sent known sent
    have canSend := start.mp ((same.trans stays.config).canSend_iff.mp repeats.canSend)
    exact (keeps canSend).carries positive stays known repeats

open FourPeers in
/-- A DECIDED message with the COMMITs of three peers. -/
def matchingDecision : QBFTConsensusMsg where
  msg := vote .decided 0 1 9
  justification := [0, 1, 2].map fun peerIdx => vote .commit peerIdx 1 9

open FourPeers in
omit [Crypto] in
/-- A peer that adopts matching COMMITs answers a ROUND-CHANGE with their value. -/
theorem run_rebroadcasts_fourPeers :
    letI := constantCrypto
    ∃ copy ∈ sentAt (((fresh 3).handleMessage matchingDecision).2, receive (changeTo 0 2)),
      Carries definition attesterDuty matchingDecision.msg copy := by
  have repeated : ∃ copy ∈ @sentAt constantCrypto
      ((@handleMessage constantCrypto (fresh 3) matchingDecision).2, receive (changeTo 0 2)),
      copy.msg.type = .decided := by
    decide +kernel
  have carries := (@run_rebroadcasts_iff constantCrypto definition (by decide) transport
    attesterDuty 3 [7] [] matchingDecision rfl (by decide +kernel)).mpr
  obtain ⟨copy, member, type⟩ := repeated
  refine ⟨copy, member, carries ?_ [receive (changeTo 0 2)] _ List.mem_cons_self copy member type⟩
  intro _
  change ∀ firstCommit ∈ matchingDecision.justification.head?, _
  rintro _ ⟨⟩
  exact Or.inr rfl

open FourPeers in
/-- The same message with a COMMIT of peer 3 for another value in front. -/
def paddedDecision : QBFTConsensusMsg where
  msg := vote .decided 0 1 9
  justification := vote .commit 3 1 8 :: matchingDecision.justification

omit [Crypto] in
/-- An instance that decided on one value repeats another one. -/
theorem paddedDecision_misread :
    letI := constantCrypto
    ((FourPeers.fresh 3).handleMessage paddedDecision).2.qCommit ≠ [] ∧
      ¬ ∀ point ∈ Machine.trace step ((FourPeers.fresh 3).handleMessage paddedDecision).2
          [FourPeers.receive (FourPeers.changeTo 0 2)],
        ∀ copy ∈ sentAt point, copy.msg.type = .decided →
          Carries FourPeers.definition FourPeers.attesterDuty paddedDecision.msg copy := by
  refine ⟨by decide +kernel, ?_⟩
  intro carries
  have repeated : ∃ copy ∈ @sentAt constantCrypto
      ((@handleMessage constantCrypto (FourPeers.fresh 3) paddedDecision).2,
        FourPeers.receive (FourPeers.changeTo 0 2)),
      copy.msg.type = .decided ∧ copy.msg.valueHash = some (FourPeers.valueHash 8) := by
    decide +kernel
  obtain ⟨copy, member, type, other⟩ := repeated
  obtain ⟨-, value, -, -⟩ := carries _ List.mem_cons_self copy member type
  rw [other] at value
  exact absurd value (by decide)

end QBFTConsensus

end DvSpec.Consensus
