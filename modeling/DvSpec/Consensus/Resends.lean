import DvSpec.Consensus.Progress
import DvSpec.Library.Admission

/-!
# How often a decision is repeated

A decided instance answers a ROUND-CHANGE of another peer with its decision when
the round exceeds every round answered for that peer before, at most sixteen
times.  What it remembers of every peer is the summary of the rounds answered
for that peer.
-/

namespace DvSpec.Consensus

open DvSpec.Library DvSpec.Library.Admission

/-! ## Sending -/

/-- The transport has peers to send to and a secret to sign with. -/
structure Transport.CanSend (t : Transport) : Prop where
  peers : t.numPeers ≠ 0
  secret : t.privateKey.length = 32

theorem Transport.outgoing_broadcastMessage [Crypto] {t : Transport} (msgType : MsgType)
    (duty : Duty) (peerIdx : Nat) {roundNum : Nat} {valueHash : Bytes}
    (justification : List QBFTMsg) (roundPos : 1 ≤ roundNum) (sized : valueHash.length = 32) :
    outgoing (t.broadcastMessage msgType duty peerIdx roundNum valueHash justification) ≠ [] ↔
      t.CanSend := by
  constructor
  · intro sent
    obtain ⟨copy, member⟩ := List.exists_mem_of_ne_nil _ sent
    obtain ⟨peers, secret⟩ := broadcastMessage_secret (eq_ok_of_mem_outgoing member) member
    exact ⟨peers, secret⟩
  · rintro ⟨peers, secret⟩ silent
    obtain ⟨copy, success⟩ :=
      broadcastMessage_succeeds secret msgType duty peerIdx justification roundPos sized
    rw [success, outgoing_ok, List.replicate_eq_nil_iff] at silent
    exact peers silent

namespace QBFTConsensus

/-- Whether an instance can send never changes. -/
theorem SameConfig.canSend_iff {s next : QBFTConsensus} (same : SameConfig s next) :
    next.t.CanSend ↔ s.t.CanSend := by
  constructor
  · rintro ⟨peers, secret⟩
    exact ⟨same.numPeers ▸ peers, same.privateKey ▸ secret⟩
  · rintro ⟨peers, secret⟩
    exact ⟨same.numPeers.symm ▸ peers, same.privateKey.symm ▸ secret⟩

variable [Crypto]

/-! ## Answers of a decided instance -/

/-- The event makes the instance send something. -/
def Answers (s : QBFTConsensus) (event : Event) : Prop := outgoing (s.step event).1 ≠ []

instance (s : QBFTConsensus) (event : Event) : Decidable (s.Answers event) :=
  inferInstanceAs (Decidable (_ ≠ _))

/-- A ROUND-CHANGE of another peer for the duty of the instance, within the limits. -/
structure AsksForDecision (s : QBFTConsensus) (consensusMsg : QBFTConsensusMsg) : Prop where
  limits : verifyMsgLimits consensusMsg s.d.nodes = .ok ()
  duty : consensusMsg.msg.duty = s.duty
  other : consensusMsg.msg.peerIdx ≠ s.peer
  type : consensusMsg.msg.type = .roundChange

/-- The round last answered for a peer, and the number of answers. -/
def resendsOf (s : QBFTConsensus) (p : Nat) : Nat × Nat := (s.decidedResends.get? p).getD (0, 0)

/-- A resend is permitted for a round beyond the last one while the count has room. -/
def Permits (s : QBFTConsensus) (peerIdx msgRound : Nat) : Prop :=
  (s.resendsOf peerIdx).1 < msgRound ∧ (s.resendsOf peerIdx).2 < maxDecidedResends

/-- The state that records a permitted resend. -/
def recordResend (s : QBFTConsensus) (peerIdx msgRound : Nat) : QBFTConsensus :=
  { s with
    decidedResends :=
      s.decidedResends.set peerIdx (msgRound, (s.resendsOf peerIdx).2 + 1) }

omit [Crypto] in
theorem allowDecidedResend_of_permits {s : QBFTConsensus} {peerIdx msgRound : Nat}
    (permits : s.Permits peerIdx msgRound) :
    s.allowDecidedResend peerIdx msgRound = (true, s.recordResend peerIdx msgRound) := by
  obtain ⟨beyond, room⟩ := permits
  unfold resendsOf at beyond room
  unfold allowDecidedResend
  dsimp only
  exact if_neg (not_or.mpr ⟨Nat.not_le.mpr beyond, Nat.not_le.mpr room⟩)

omit [Crypto] in
theorem allowDecidedResend_of_not_permits {s : QBFTConsensus} {peerIdx msgRound : Nat}
    (refuses : ¬ s.Permits peerIdx msgRound) :
    s.allowDecidedResend peerIdx msgRound = (false, s) := by
  have spent : (s.resendsOf peerIdx).1 ≥ msgRound ∨ maxDecidedResends ≤ (s.resendsOf peerIdx).2 := by
    unfold Permits at refuses
    omega
  unfold resendsOf at spent
  unfold allowDecidedResend
  dsimp only
  exact if_pos spent

omit [Crypto] in
theorem resendsOf_recordResend (s : QBFTConsensus) (peerIdx msgRound p : Nat) :
    (s.recordResend peerIdx msgRound).resendsOf p =
      if peerIdx = p then (msgRound, (s.resendsOf peerIdx).2 + 1) else s.resendsOf p := by
  unfold recordResend resendsOf
  split
  · rename_i same
    subst same
    simp
  · rename_i different
    rw [Dict.get?_set_ne _ _ (Ne.symm different)]

/-- A decided instance whose decision has a value hash. -/
structure DecidedOn (s : QBFTConsensus) (firstCommit : QBFTMsg) (valueHash : Bytes) : Prop where
  qCommit : s.qCommit.head? = some firstCommit
  known : firstCommit.valueHash = some valueHash
  round : 1 ≤ s.round

section DecidedOn

variable {s : QBFTConsensus} {firstCommit : QBFTMsg} {valueHash : Bytes}
  {consensusMsg : QBFTConsensusMsg}

omit [Crypto] in
theorem DecidedOn.eq_cons (decided : s.DecidedOn firstCommit valueHash) :
    ∃ more, s.qCommit = firstCommit :: more :=
  List.head?_eq_some_iff.mp decided.qCommit

/-- A permitted request is recorded and answered with the decision. -/
theorem handleMessage_of_permits (decided : s.DecidedOn firstCommit valueHash)
    (asks : s.AsksForDecision consensusMsg)
    (permits : s.Permits consensusMsg.msg.peerIdx consensusMsg.msg.round) :
    s.handleMessage consensusMsg =
      ((s.storeValues consensusMsg.values).t.broadcastMessage .decided s.duty s.peer s.round
        valueHash s.qCommit,
        (s.storeValues consensusMsg.values).recordResend consensusMsg.msg.peerIdx
          consensusMsg.msg.round) := by
  obtain ⟨more, qCommit⟩ := decided.eq_cons
  have stored : (s.storeValues consensusMsg.values).qCommit = firstCommit :: more := qCommit
  have duty : consensusMsg.msg.duty = (s.storeValues consensusMsg.values).duty := asks.duty
  have other : consensusMsg.msg.peerIdx ≠ (s.storeValues consensusMsg.values).peer := asks.other
  have allowed : (s.storeValues consensusMsg.values).Permits consensusMsg.msg.peerIdx
      consensusMsg.msg.round := permits
  unfold handleMessage answerDecided
  simp only [asks.limits, duty, stored, other, asks.type, ne_eq, not_true, if_false,
    not_false_eq_true, if_true, and_self, allowDecidedResend_of_permits allowed, decided.known]
  rfl

/-- Anything else is not answered and leaves the records unchanged. -/
theorem handleMessage_of_refuses (decided : s.DecidedOn firstCommit valueHash)
    (refuses : ¬ (s.AsksForDecision consensusMsg ∧
      s.Permits consensusMsg.msg.peerIdx consensusMsg.msg.round)) :
    outgoing (s.handleMessage consensusMsg).1 = [] ∧
      (s.handleMessage consensusMsg).2.decidedResends = s.decidedResends := by
  obtain ⟨more, qCommit⟩ := decided.eq_cons
  have stored : (s.storeValues consensusMsg.values).qCommit = firstCommit :: more := qCommit
  unfold handleMessage
  split
  · exact ⟨rfl, rfl⟩
  · rename_i limits
    dsimp only
    split
    · exact ⟨rfl, rfl⟩
    · rename_i duty
      rw [stored]
      dsimp only
      unfold answerDecided
      split
      · rename_i asks
        have spent : ¬ (s.storeValues consensusMsg.values).Permits consensusMsg.msg.peerIdx
            consensusMsg.msg.round := fun permits =>
          refuses ⟨⟨limits, not_not.mp duty, asks.1, asks.2⟩, permits⟩
        rw [allowDecidedResend_of_not_permits spent]
        exact ⟨rfl, rfl⟩
      · exact ⟨rfl, rfl⟩

/-- Which messages a decided instance answers. -/
theorem answers_iff (decided : s.DecidedOn firstCommit valueHash) :
    s.Answers (.receive consensusMsg) ↔ s.AsksForDecision consensusMsg ∧ s.t.CanSend ∧
      s.Permits consensusMsg.msg.peerIdx consensusMsg.msg.round := by
  change outgoing (s.handleMessage consensusMsg).1 ≠ [] ↔ _
  by_cases permitted : s.AsksForDecision consensusMsg ∧
      s.Permits consensusMsg.msg.peerIdx consensusMsg.msg.round
  · have sized := firstCommit.length_valueHash valueHash decided.known
    rw [handleMessage_of_permits decided permitted.1 permitted.2,
      Transport.outgoing_broadcastMessage _ _ _ _ decided.round sized]
    constructor
    · rintro ⟨peers, secret⟩
      exact ⟨permitted.1, ⟨peers, secret⟩, permitted.2⟩
    · rintro ⟨-, ⟨peers, secret⟩, -⟩
      exact ⟨peers, secret⟩
  · have silent := (handleMessage_of_refuses decided permitted).1
    constructor
    · intro answers
      exact absurd silent answers
    · rintro ⟨asks, -, permits⟩
      exact absurd ⟨asks, permits⟩ permitted

end DecidedOn

/-! ## Rounds and records of every state -/

theorem Effect.round_pos {s : QBFTConsensus} {event : Event} {outcome : Outcome}
    (effect : s.Effect event outcome) (positive : 1 ≤ s.round) : 1 ≤ outcome.2.round := by
  cases effect with
  | idle => exact positive
  | resent => exact positive
  | kept => exact positive
  | noted => exact positive
  | @prePrepared consensusMsg => simpa using consensusMsg.msg.round_pos
  | prepared => exact positive
  | committed => exact positive
  | @adopted consensusMsg => simpa using consensusMsg.msg.round_pos
  | jumped _ future => simpa using Nat.one_le_of_lt future
  | proposed => exact positive
  | timedOut => simp

theorem decidedResends_uponRule (s : QBFTConsensus) (rule : UponRule) (msg : QBFTMsg)
    (justification : List QBFTMsg) :
    (s.uponRule rule msg justification).2.decidedResends = s.decidedResends := by
  have changed : ∀ (s : QBFTConsensus) r, (s.changeRound r).decidedResends = s.decidedResends := by
    intro s r
    rw [changeRound_eq]
  cases rule with
  | nothing => rfl
  | roundTimeout => rfl
  | unjustQuorumRoundChanges => rfl
  | quorumRoundChanges => rfl
  | quorumCommits => exact changed s _
  | justifiedDecided => exact changed s _
  | justifiedPrePrepare => cases hashed : msg.valueHash <;> simp [uponRule, hashed, changed]
  | quorumPrepares => cases hashed : msg.valueHash <;> simp [uponRule, hashed]
  | fPlus1RoundChanges =>
      unfold uponRule uponFPlus1
      dsimp only
      split
      · rfl
      · split <;> simp [changed]

/-- A timeout moves an undecided instance to the next round. -/
theorem step_timeout {s : QBFTConsensus} (undecided : s.qCommit = []) :
    (s.step .timeout).2 = s.changeRound (s.round + 1) := by
  change s.timeout.2 = _
  unfold timeout
  rw [undecided]

/-- An undecided instance records no resends. -/
theorem decidedResends_step (s : QBFTConsensus) (event : Event) (undecided : s.qCommit = []) :
    (s.step event).2.decidedResends = s.decidedResends := by
  cases event with
  | timeout =>
      rw [step_timeout undecided, changeRound_eq]
  | receive consensusMsg =>
      have open_ : (s.storeValues consensusMsg.values).qCommit = [] := undecided
      change (s.handleMessage consensusMsg).2.decidedResends = _
      unfold handleMessage
      split
      · rfl
      · dsimp only
        split
        · rfl
        · rw [open_]
          dsimp only
          split
          · rfl
          · rfl
          · unfold react
            dsimp only
            split
            · rfl
            · split
              · rfl
              · split
                · rfl
                · exact decidedResends_uponRule _ _ _ _

/-! ## One event of a decided instance -/

/-- Only a decision with a value hash is repeated. -/
theorem decided_of_answers {s : QBFTConsensus} {event : Event} (round : 1 ≤ s.round)
    (decided : s.qCommit ≠ []) (answers : s.Answers event) :
    ∃ firstCommit valueHash, s.DecidedOn firstCommit valueHash := by
  obtain ⟨copy, member⟩ := List.exists_mem_of_ne_nil _ answers
  have sends : s.Sends event (s.step event).2 copy :=
    @sends_of_mem_sentAt _ (s, event) copy member
  cases sends with
  | decided firstCommit more qCommit valueHash known =>
      exact ⟨firstCommit, valueHash, by rw [qCommit]; rfl, known, round⟩
  | prepare _ _ fires => exact absurd fires.undecided decided
  | commit _ _ _ fires => exact absurd fires.undecided decided
  | roundChange undecided => exact absurd undecided.1 decided
  | prePrepare _ _ _ fires => exact absurd fires.undecided decided

section DecidedOn

variable {s : QBFTConsensus} {firstCommit : QBFTMsg} {valueHash : Bytes}
  {consensusMsg : QBFTConsensusMsg}

omit [Crypto] in
theorem DecidedOn.ne_nil (decided : s.DecidedOn firstCommit valueHash) : s.qCommit ≠ [] := by
  obtain ⟨more, qCommit⟩ := decided.eq_cons
  rw [qCommit]
  exact List.cons_ne_nil _ _

theorem DecidedOn.step (decided : s.DecidedOn firstCommit valueHash) (event : Event) :
    (s.step event).2.DecidedOn firstCommit valueHash := by
  have effect := s.step_effect event
  refine ⟨?_, decided.known, effect.round_pos decided.round⟩
  rw [effect.qCommit_of_decided decided.ne_nil]
  exact decided.qCommit

theorem DecidedOn.timeout (decided : s.DecidedOn firstCommit valueHash) :
    s.step .timeout = (.ok [], s) := by
  obtain ⟨more, qCommit⟩ := decided.eq_cons
  change s.timeout = _
  unfold QBFTConsensus.timeout
  rw [qCommit]

theorem resendsOf_of_permits (decided : s.DecidedOn firstCommit valueHash)
    (asks : s.AsksForDecision consensusMsg)
    (permits : s.Permits consensusMsg.msg.peerIdx consensusMsg.msg.round) (p : Nat) :
    (s.handleMessage consensusMsg).2.resendsOf p =
      if consensusMsg.msg.peerIdx = p then
        (consensusMsg.msg.round, (s.resendsOf consensusMsg.msg.peerIdx).2 + 1)
      else s.resendsOf p := by
  rw [handleMessage_of_permits decided asks permits]
  exact resendsOf_recordResend _ _ _ _

theorem resendsOf_of_refuses (decided : s.DecidedOn firstCommit valueHash)
    (refuses : ¬ (s.AsksForDecision consensusMsg ∧
      s.Permits consensusMsg.msg.peerIdx consensusMsg.msg.round)) (p : Nat) :
    (s.handleMessage consensusMsg).2.resendsOf p = s.resendsOf p := by
  unfold resendsOf
  rw [(handleMessage_of_refuses decided refuses).2]

/-- Messages of other peers leave the record of a peer unchanged. -/
theorem resendsOf_of_other (decided : s.DecidedOn firstCommit valueHash) {p : Nat}
    (other : consensusMsg.msg.peerIdx ≠ p) :
    (s.handleMessage consensusMsg).2.resendsOf p = s.resendsOf p := by
  by_cases permitted : s.AsksForDecision consensusMsg ∧
      s.Permits consensusMsg.msg.peerIdx consensusMsg.msg.round
  · rw [resendsOf_of_permits decided permitted.1 permitted.2, if_neg other]
  · exact resendsOf_of_refuses decided permitted p

end DecidedOn

/-! ## The rounds answered for a peer -/

/-- The round for which a decided instance answers a message of peer `p`. -/
def answeredRound (p : Nat) (s : QBFTConsensus) : Event → Option Nat
  | .timeout => none
  | .receive consensusMsg =>
      if s.qCommit ≠ [] ∧ consensusMsg.msg.peerIdx = p ∧ s.Answers (.receive consensusMsg) then
        some consensusMsg.msg.round
      else none

/-- The rounds of peer `p` that are answered in a run, in order. -/
def answeredRounds (p : Nat) (s : QBFTConsensus) (events : List Event) : List Nat :=
  (Machine.trace step s events).filterMap fun point => answeredRound p point.1 point.2

/-- The instance remembers the summary of the rounds answered for a peer. -/
structure Tracks (p : Nat) (s : QBFTConsensus) (log : List Nat) : Prop where
  round : 1 ≤ s.round
  admitted : Admitted maxDecidedResends log
  undecided : s.qCommit = [] → s.resendsOf p = (0, 0) ∧ log = []
  summarised : ∀ firstCommit valueHash, s.DecidedOn firstCommit valueHash → s.t.CanSend →
    s.resendsOf p = summary log

section Tracks

variable {s : QBFTConsensus} {p : Nat} {log : List Nat}

theorem answeredRound_eq_some {event : Event} {number : Nat}
    (answered : answeredRound p s event = some number) :
    ∃ consensusMsg, event = .receive consensusMsg ∧ s.qCommit ≠ [] ∧
      consensusMsg.msg.peerIdx = p ∧ s.Answers event ∧ consensusMsg.msg.round = number := by
  cases event with
  | timeout => cases answered
  | receive consensusMsg =>
      by_cases conditions : s.qCommit ≠ [] ∧ consensusMsg.msg.peerIdx = p ∧
          s.Answers (.receive consensusMsg)
      · rw [answeredRound, if_pos conditions] at answered
        obtain ⟨decided, sender, answers⟩ := conditions
        exact ⟨consensusMsg, rfl, decided, sender, answers, Option.some.inj answered⟩
      · rw [answeredRound, if_neg conditions] at answered
        cases answered

/-- An answered round was admissible, and is remembered. -/
theorem Tracks.answered (tracks : Tracks p s log) {event : Event} {number : Nat}
    (answered : answeredRound p s event = some number) :
    Admissible maxDecidedResends log number ∧
      (s.step event).2.resendsOf p = summary (log ++ [number]) := by
  obtain ⟨consensusMsg, rfl, decided, rfl, answers, rfl⟩ := answeredRound_eq_some answered
  obtain ⟨firstCommit, valueHash, known⟩ := decided_of_answers tracks.round decided answers
  obtain ⟨asks, canSend, permits⟩ := (answers_iff known).mp answers
  have remembered := tracks.summarised firstCommit valueHash known canSend
  constructor
  · apply (admissible_iff_summary tracks.admitted consensusMsg.msg.round_pos).mpr
    rw [← remembered]
    exact permits
  · rw [summary_concat, ← remembered]
    exact (resendsOf_of_permits known asks permits _).trans (if_pos rfl)

/-- Without an answer the record of the peer stays. -/
theorem resendsOf_of_unanswered {firstCommit : QBFTMsg} {valueHash : Bytes}
    (decided : s.DecidedOn firstCommit valueHash) (canSend : s.t.CanSend) {event : Event}
    (unanswered : answeredRound p s event = none) :
    (s.step event).2.resendsOf p = s.resendsOf p := by
  cases event with
  | timeout => rw [decided.timeout]
  | receive consensusMsg =>
      by_cases own : consensusMsg.msg.peerIdx = p
      · apply resendsOf_of_refuses decided
        intro permitted
        have answers := (answers_iff decided).mpr ⟨permitted.1, canSend, permitted.2⟩
        rw [answeredRound, if_pos ⟨decided.ne_nil, own, answers⟩] at unanswered
        cases unanswered
      · exact resendsOf_of_other decided own

theorem Tracks.step (tracks : Tracks p s log) (event : Event) :
    Tracks p (s.step event).2 (log ++ (answeredRound p s event).toList) := by
  have effect := s.step_effect event
  have round := effect.round_pos tracks.round
  by_cases before : s.qCommit = []
  · obtain ⟨fresh, rfl⟩ := tracks.undecided before
    have unanswered : answeredRound p s event = none := by
      cases event with
      | timeout => rfl
      | receive consensusMsg => exact if_neg fun conditions => conditions.1 before
    have kept : (s.step event).2.resendsOf p = (0, 0) := by
      rw [← fresh, resendsOf, decidedResends_step s event before]
      rfl
    rw [unanswered]
    exact ⟨round, admitted_nil _, fun _ => ⟨kept, rfl⟩, fun _ _ _ _ => kept⟩
  · have qCommit := effect.qCommit_of_decided before
    have decided : (s.step event).2.qCommit ≠ [] := qCommit ▸ before
    cases answered : answeredRound p s event with
    | some number =>
        obtain ⟨admissible, remembered⟩ := tracks.answered answered
        exact ⟨round, tracks.admitted.concat admissible, fun none => absurd none decided,
          fun _ _ _ _ => remembered⟩
    | none =>
        rw [Option.toList_none, List.append_nil]
        refine ⟨round, tracks.admitted, fun none => absurd none decided, ?_⟩
        intro firstCommit valueHash known canSend
        have earlier : s.DecidedOn firstCommit valueHash :=
          ⟨qCommit ▸ known.qCommit, known.known, tracks.round⟩
        have could := effect.sameConfig.canSend_iff.mp canSend
        rw [resendsOf_of_unanswered earlier could answered]
        exact tracks.summarised firstCommit valueHash earlier could

/-- Along a run the answered rounds extend the log. -/
theorem Tracks.final (tracks : Tracks p s log) (events : List Event) :
    Tracks p (Machine.final QBFTConsensus.step s events) (log ++ answeredRounds p s events) := by
  induction events generalizing s log with
  | nil =>
      rw [answeredRounds, Machine.trace, List.filterMap_nil, List.append_nil]
      exact tracks
  | cons event rest ih =>
      have later := ih (tracks.step event)
      rw [List.append_assoc] at later
      have log_cons : answeredRounds p s (event :: rest) = (answeredRound p s event).toList ++
          answeredRounds p (s.step event).2 rest := by
        unfold answeredRounds
        rw [Machine.trace, List.filterMap_cons]
        cases answeredRound p s event <;> rfl
      rw [log_cons]
      exact later

theorem tracks_new (d : Definition) (t : Transport) (duty : Duty) (peer : Nat)
    (proposalValue : Bytes) : Tracks p (new d t duty peer proposalValue) [] :=
  ⟨Nat.le_refl 1, admitted_nil _, fun _ => ⟨rfl, rfl⟩, fun _ _ _ _ => rfl⟩

end Tracks

/-! ## Independence of the peers -/

/-- Whether an event is a message of peer `p`. -/
def fromPeer (p : Nat) : Event → Bool
  | .timeout => false
  | .receive consensusMsg => decide (consensusMsg.msg.peerIdx = p)

/-- Whether each message of peer `p` in a run is answered, in order. -/
def answersTo (p : Nat) (s : QBFTConsensus) (events : List Event) : List Bool :=
  ((Machine.trace step s events).filter fun point => fromPeer p point.2).map
    fun point => decide (point.1.Answers point.2)

theorem answersTo_cons (p : Nat) (s : QBFTConsensus) (event : Event) (rest : List Event) :
    answersTo p s (event :: rest) =
      if fromPeer p event then decide (s.Answers event) :: answersTo p (s.step event).2 rest
      else answersTo p (s.step event).2 rest := by
  unfold answersTo
  rw [Machine.trace, List.filter_cons]
  split <;> rfl

/-- Two instances with one decision that remember the same of peer `p`. -/
structure Alike (p : Nat) (firstCommit : QBFTMsg) (valueHash : Bytes) (s u : QBFTConsensus) :
    Prop where
  left : s.DecidedOn firstCommit valueHash
  right : u.DecidedOn firstCommit valueHash
  config : SameConfig s u
  resends : u.resendsOf p = s.resendsOf p

section Alike

variable {p : Nat} {firstCommit : QBFTMsg} {valueHash : Bytes} {s u : QBFTConsensus}

/-- Messages of other peers do not matter. -/
theorem Alike.other (alike : Alike p firstCommit valueHash s u) {event : Event}
    (other : fromPeer p event = false) :
    Alike p firstCommit valueHash (s.step event).2 u := by
  have same := s.step_sameConfig event
  have config := alike.config
  refine ⟨alike.left.step event, alike.right, same.symm.trans config, ?_⟩
  rw [alike.resends]
  cases event with
  | timeout => rw [alike.left.timeout]
  | receive consensusMsg =>
      exact (resendsOf_of_other alike.left (of_decide_eq_false other)).symm

omit [Crypto] in
/-- Both treat a message of the peer as the same request. -/
theorem Alike.permitted (alike : Alike p firstCommit valueHash s u)
    {consensusMsg : QBFTConsensusMsg} (own : consensusMsg.msg.peerIdx = p) :
    (u.AsksForDecision consensusMsg ↔ s.AsksForDecision consensusMsg) ∧
      (u.Permits consensusMsg.msg.peerIdx consensusMsg.msg.round ↔
        s.Permits consensusMsg.msg.peerIdx consensusMsg.msg.round) := by
  have config := alike.config
  constructor
  · constructor
    · rintro ⟨limits, duty, other, type⟩
      exact ⟨config.d ▸ limits, config.duty ▸ duty, config.peer ▸ other, type⟩
    · rintro ⟨limits, duty, other, type⟩
      exact ⟨config.d.symm ▸ limits, config.duty.symm ▸ duty, config.peer.symm ▸ other, type⟩
  · rw [own, Permits, Permits, alike.resends]

/-- A message of the peer has the same answer, and is remembered alike. -/
theorem Alike.own (alike : Alike p firstCommit valueHash s u) {event : Event}
    (own : fromPeer p event = true) :
    (u.Answers event ↔ s.Answers event) ∧
      Alike p firstCommit valueHash (s.step event).2 (u.step event).2 := by
  cases event with
  | timeout => cases own
  | receive consensusMsg =>
      have sender : consensusMsg.msg.peerIdx = p := of_decide_eq_true own
      obtain ⟨asks, permits⟩ := alike.permitted sender
      have before := s.step_sameConfig (.receive consensusMsg)
      have after := u.step_sameConfig (.receive consensusMsg)
      refine ⟨?_, alike.left.step _, alike.right.step _,
        before.symm.trans (alike.config.trans after), ?_⟩
      · rw [answers_iff alike.left, answers_iff alike.right, asks, permits,
          alike.config.canSend_iff]
      · change (u.handleMessage consensusMsg).2.resendsOf p =
          (s.handleMessage consensusMsg).2.resendsOf p
        by_cases permitted : s.AsksForDecision consensusMsg ∧
            s.Permits consensusMsg.msg.peerIdx consensusMsg.msg.round
        · rw [resendsOf_of_permits alike.left permitted.1 permitted.2,
            resendsOf_of_permits alike.right (asks.mpr permitted.1) (permits.mpr permitted.2),
            sender, alike.resends]
        · have refuses : ¬ (u.AsksForDecision consensusMsg ∧
              u.Permits consensusMsg.msg.peerIdx consensusMsg.msg.round) := by
            rw [asks, permits]
            exact permitted
          rw [resendsOf_of_refuses alike.left permitted, resendsOf_of_refuses alike.right refuses]
          exact alike.resends

/-- The answers to a peer are those of the run that consists of its messages only. -/
theorem Alike.answersTo_eq (alike : Alike p firstCommit valueHash s u) (events : List Event) :
    answersTo p s events = answersTo p u (events.filter (fromPeer p)) := by
  induction events generalizing s u with
  | nil => rfl
  | cons event rest ih =>
      rw [answersTo_cons, List.filter_cons]
      cases own : fromPeer p event with
      | false =>
          rw [if_neg Bool.false_ne_true, if_neg Bool.false_ne_true]
          exact ih (alike.other own)
      | true =>
          obtain ⟨answers, next⟩ := alike.own own
          rw [if_pos rfl, if_pos rfl, answersTo_cons, if_pos own, ih next,
            decide_eq_decide.mpr answers]

end Alike

/-! ## The rate limit -/

/-- What a decided instance keeps for good. -/
structure SameDecision (s u : QBFTConsensus) : Prop where
  qCommit : u.qCommit = s.qCommit
  round : u.round = s.round
  buffer : u.buffer = s.buffer
  preparedRound : u.preparedRound = s.preparedRound
  preparedValueHash : u.preparedValueHash = s.preparedValueHash
  preparedJustification : u.preparedJustification = s.preparedJustification

/-- How the instance reached from `start` by the events `before` handles the events `after`. -/
structure ResendsLimited (start : QBFTConsensus) (before after : List Event) : Prop where
  /-- Decision, round, buffer and prepared state never change again. -/
  frozen : Machine.Always step (SameDecision (Machine.final step start before))
    (Machine.final step start before) after
  /-- A message is answered exactly when it is a request with a round beyond all rounds
  answered for its sender, of which there are fewer than the limit. -/
  answered_iff : ∀ earlier consensusMsg later,
    after = earlier ++ .receive consensusMsg :: later →
    let s := Machine.final step start (before ++ earlier)
    (s.Answers (.receive consensusMsg) ↔ s.AsksForDecision consensusMsg ∧ s.t.CanSend ∧
      Admissible maxDecidedResends
        (answeredRounds consensusMsg.msg.peerIdx start (before ++ earlier))
        consensusMsg.msg.round)
  /-- The rounds answered for a peer are strictly increasing, and limited in number. -/
  admitted : ∀ p, Admitted maxDecidedResends (answeredRounds p start (before ++ after))
  /-- Which messages of a peer are answered depends on the messages of that peer only. -/
  independent : ∀ p (other : List Event), other.filter (fromPeer p) = after.filter (fromPeer p) →
    answersTo p (Machine.final step start before) other =
      answersTo p (Machine.final step start before) after

theorem SameDecision.step {s u : QBFTConsensus} (same : SameDecision s u)
    (decided : s.qCommit ≠ []) (event : Event) : SameDecision s (u.step event).2 := by
  have stays : u.qCommit ≠ [] := same.qCommit ▸ decided
  obtain ⟨values, decidedResends, frozen⟩ := (u.step_effect event).frozen stays
  rw [frozen]
  exact ⟨same.qCommit, same.round, same.buffer, same.preparedRound, same.preparedValueHash,
    same.preparedJustification⟩

theorem DecidedOn.final {s : QBFTConsensus} {firstCommit : QBFTMsg} {valueHash : Bytes}
    (decided : s.DecidedOn firstCommit valueHash) (events : List Event) :
    (Machine.final QBFTConsensus.step s events).DecidedOn firstCommit valueHash :=
  Machine.final_invariant (C := fun _ _ => True)
    (I := fun s : QBFTConsensus => s.DecidedOn firstCommit valueHash)
    (fun _ event holds _ => holds.step event) decided fun _ _ => trivial

/-- In every run, an instance that decided on a value hash repeats its decision within the
rate limit. -/
theorem run_resendsLimited (d : Definition) (t : Transport) (duty : Duty) (peer : Nat)
    (proposalValue : Bytes) (before after : List Event) {firstCommit : QBFTMsg}
    {valueHash : Bytes}
    (decision : (Machine.final step (new d t duty peer proposalValue) before).qCommit.head? =
      some firstCommit)
    (known : firstCommit.valueHash = some valueHash) :
    ResendsLimited (new d t duty peer proposalValue) before after := by
  have tracks : ∀ p events, Tracks p
      (Machine.final step (new d t duty peer proposalValue) events)
      (answeredRounds p (new d t duty peer proposalValue) events) := fun p events =>
    (tracks_new d t duty peer proposalValue).final events
  have decided : (Machine.final step (new d t duty peer proposalValue) before).DecidedOn
      firstCommit valueHash := ⟨decision, known, (tracks 0 before).round⟩
  constructor
  · refine Machine.always_invariant (C := fun _ _ => True) ?_ ⟨rfl, rfl, rfl, rfl, rfl, rfl⟩
      fun _ _ => trivial
    intro u event same _
    exact same.step decided.ne_nil event
  · rintro earlier consensusMsg later -
    have still := decided.final earlier
    rw [← Machine.final_append] at still
    have tracked := tracks consensusMsg.msg.peerIdx (before ++ earlier)
    intro s
    rw [answers_iff still, and_congr_right_iff]
    intro asks
    rw [and_congr_right_iff]
    intro canSend
    rw [admissible_iff_summary tracked.admitted consensusMsg.msg.round_pos,
      ← tracked.summarised firstCommit valueHash still canSend]
    rfl
  · intro p
    exact (tracks p (before ++ after)).admitted
  · intro p other same
    have alike : Alike p firstCommit valueHash _ _ := ⟨decided, decided, SameConfig.refl _, rfl⟩
    rw [alike.answersTo_eq other, alike.answersTo_eq after, same]

open FourPeers in
omit [Crypto] in
/-- A peer that decided on a DECIDED message, and a replayed ROUND-CHANGE. -/
theorem run_resendsLimited_fourPeers :
    letI := constantCrypto
    ResendsLimited (new definition transport attesterDuty 3 [7])
      [receive (vote .decided 0 1 9) ([0, 1, 2].map fun peerIdx => vote .commit peerIdx 1 9)]
      [receive (changeTo 1 2), receive (changeTo 1 2)] :=
  letI := constantCrypto
  run_resendsLimited definition transport attesterDuty 3 [7] _ _
    (show _ = some (vote .commit 0 1 9) by decide +kernel) rfl

end QBFTConsensus

end DvSpec.Consensus
