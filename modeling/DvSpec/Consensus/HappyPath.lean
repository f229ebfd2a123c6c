import DvSpec.Consensus.DutyIsolation
import DvSpec.Consensus.ValueLock

/-!
# Fault-free runs decide

Without timeouts and losses every peer decides the proposal of the first leader,
in whatever order the copies arrive.  An undecided peer has every message in its
buffer or still ahead, and has sent every vote its buffer calls for.
-/

namespace DvSpec.Consensus

open DvSpec.Library

variable [Crypto]

/-! ## Votes of the first round -/

omit [Crypto] in
/-- A vote of the first round for one value, without justification. -/
structure FirstRoundVote (valueHash : Bytes) (m : QBFTConsensusMsg) : Prop where
  type : m.msg.type = .prePrepare ∨ m.msg.type = .prepare ∨ m.msg.type = .commit
  round : m.msg.round = 1
  value : m.msg.valueHash = some valueHash
  justification : m.justification = []
  values : m.values.length ≤ 1

omit [Crypto] in
theorem FirstRoundVote.limits {valueHash : Bytes} {m : QBFTConsensusMsg}
    (vote : FirstRoundVote valueHash m) (nodes : Nat) : verifyMsgLimits m nodes = .ok () := by
  have values := vote.values
  rw [verifyMsgLimits_eq_ok_iff, vote.justification, List.length_nil]
  omega

/-- A first-round broadcast reaches every peer with the same vote. -/
theorem Transport.broadcast_firstRound {t : Transport} (secret : t.privateKey.length = 32)
    {type : MsgType} (vote : type = .prePrepare ∨ type = .prepare ∨ type = .commit) (duty : Duty)
    (peerIdx : Nat) {valueHash : Bytes} (sized : valueHash.length = 32) (peers : 0 < t.numPeers) :
    ∃ copy, t.broadcastMessage type duty peerIdx 1 valueHash =
        .ok (List.replicate t.numPeers copy) ∧
      copy.msg.type = type ∧ FirstRoundVote valueHash copy := by
  obtain ⟨copy, success⟩ := t.broadcastMessage_succeeds secret type duty peerIdx [] (Nat.le_refl 1)
    sized
  have member : copy ∈ List.replicate t.numPeers copy :=
    List.mem_replicate.mpr ⟨peers.ne', rfl⟩
  obtain ⟨built, justification, values⟩ := mem_broadcastMessage success member
  have plain : type ≠ .roundChange := by
    rintro rfl
    simp at vote
  refine ⟨copy, success, built.type_eq, ?_⟩
  constructor
  · rw [built.type_eq]
    exact vote
  · exact built.round_eq
  · rw [built.valueHash_eq, if_neg plain]
  · exact justification
  · rw [values]
    exact (List.dedup_sublist _).length_le.trans (t.length_knownValue_le _)

namespace QBFTConsensus

/-! ## An instance of the first round -/

omit [Crypto] in
/-- A rule was triggered in the first round. -/
def Recorded (s : QBFTConsensus) (rule : UponRule) : Prop :=
  s.dedupRules.contains (rule, 1) = true

omit [Crypto] in
/-- The buffered votes of one type for a value in the first round. -/
def tally (s : QBFTConsensus) (type : MsgType) (valueHash : Bytes) : List QBFTMsg :=
  votesFor type 1 (some valueHash) s.allMsg

omit [Crypto] in
/-- An undecided instance of the first round that has sent every vote its buffer calls
for. -/
structure Waiting (valueHash : Bytes) (s : QBFTConsensus) (log : List QBFTConsensusMsg) :
    Prop where
  undecided : s.qCommit = []
  round : s.round = 1
  proposal : (∃ m ∈ s.buffered, m.msg.type = .prePrepare) → s.Recorded .justifiedPrePrepare
  quorum : s.d.quorum ≤ (s.tally .prepare valueHash).length → s.Recorded .quorumPrepares
  few : (s.tally .commit valueHash).length < s.d.quorum
  prepare : s.Recorded .justifiedPrePrepare → ∃ m ∈ log, m.msg.type = .prepare
  commit : s.Recorded .quorumPrepares → ∃ m ∈ log, m.msg.type = .commit
  unfinished : ¬ s.Recorded .quorumCommits

omit [Crypto] in
/-- An instance that decided a value in the first round. -/
structure Decided (valueHash : Bytes) (s : QBFTConsensus) : Prop where
  nonempty : s.qCommit ≠ []
  commits : ∀ j ∈ s.qCommit, j.type = .commit ∧ j.round = 1 ∧ j.valueHash = some valueHash

variable {s next : QBFTConsensus} {valueHash : Bytes} {m : QBFTConsensusMsg}
  {log sent : List QBFTConsensusMsg}

/-- A received vote counts once, for its own type. -/
theorem length_tally_received (vote : FirstRoundVote valueHash m) (type : MsgType) :
    ((s.received m).tally type valueHash).length =
      (s.tally type valueHash).length + if m.msg.type = type then 1 else 0 := by
  have grown := ((perm_allMsg (s.storeValues m.values) m).filter
    fun j => j.type = type ∧ j.round = 1 ∧ j.valueHash = some valueHash).length_eq
  rw [votes, vote.justification, List.filter_append, List.length_append] at grown
  refine grown.trans (congrArg _ ?_)
  rw [List.filter_singleton]
  by_cases same : m.msg.type = type <;> simp [same, vote.round, vote.value]

omit [Crypto] in
theorem tally_congr (same : next.buffer = s.buffer) (type : MsgType) :
    next.tally type valueHash = s.tally type valueHash := by
  rw [tally, allMsg_congr same, tally]

/-- An instance waits on after a vote when every rule the vote completes is recorded and
every new record comes with its message. -/
theorem Waiting.after (waiting : s.Waiting valueHash log) (vote : FirstRoundVote valueHash m)
    (config : SameConfig s next) (buffer : next.buffer = (s.received m).buffer)
    (undecided : next.qCommit = []) (round : next.round = 1)
    (kept : ∀ rule, s.Recorded rule → next.Recorded rule)
    (proposal : m.msg.type = .prePrepare → next.Recorded .justifiedPrePrepare)
    (quorum : m.msg.type = .prepare →
      s.d.quorum ≤ ((s.received m).tally .prepare valueHash).length →
      next.Recorded .quorumPrepares)
    (few : m.msg.type = .commit → ((s.received m).tally .commit valueHash).length < s.d.quorum)
    (new : ∀ rule, next.Recorded rule → s.Recorded rule ∨
      rule = .justifiedPrePrepare ∧ (∃ x ∈ sent, x.msg.type = .prepare) ∨
      rule = .quorumPrepares ∧ ∃ x ∈ sent, x.msg.type = .commit) :
    next.Waiting valueHash (log ++ sent) := by
  have extended : ∀ {messages : List QBFTConsensusMsg} {type : MsgType},
      messages ⊆ log ++ sent → (∃ x ∈ messages, x.msg.type = type) →
      ∃ x ∈ log ++ sent, x.msg.type = type := by
    rintro messages type included ⟨x, member, typed⟩
    exact ⟨x, included member, typed⟩
  have old : log ⊆ log ++ sent := List.subset_append_left _ _
  have fresh : sent ⊆ log ++ sent := List.subset_append_right _ _
  constructor
  · exact undecided
  · exact round
  · rintro ⟨x, member, proposes⟩
    rw [buffered_congr buffer] at member
    rcases mem_buffered_bufferMessage.mp member with before | rfl
    · exact kept _ (waiting.proposal ⟨x, before, proposes⟩)
    · exact proposal proposes
  · intro enough
    rw [tally_congr buffer, config.d] at enough
    by_cases prepare : m.msg.type = .prepare
    · exact quorum prepare enough
    · rw [length_tally_received vote, if_neg prepare] at enough
      exact kept _ (waiting.quorum enough)
  · rw [tally_congr buffer, config.d]
    by_cases commit : m.msg.type = .commit
    · exact few commit
    · rw [length_tally_received vote, if_neg commit]
      exact waiting.few
  · intro recorded
    rcases new _ recorded with before | ⟨-, prepares⟩ | ⟨other, -⟩
    · exact extended old (waiting.prepare before)
    · exact extended fresh prepares
    · cases other
  · intro recorded
    rcases new _ recorded with before | ⟨other, -⟩ | ⟨-, commits⟩
    · exact extended old (waiting.commit before)
    · cases other
    · exact extended fresh commits
  · intro recorded
    rcases new _ recorded with before | ⟨other, -⟩ | ⟨other, -⟩
    · exact waiting.unfinished before
    · cases other
    · cases other

omit [Crypto] in
theorem recorded_of_set {rule : UponRule}
    (set : next.dedupRules = s.dedupRules.set (rule, 1) true) (other : UponRule) :
    next.Recorded other ↔ s.Recorded other ∨ other = rule := by
  unfold Recorded
  rw [set, Dict.contains_set, Bool.or_eq_true, decide_eq_true_iff, Prod.mk.injEq]
  tauto

/-- The instance waits on and has only sent votes for the value. -/
structure WaitsOn (valueHash : Bytes) (log : List QBFTConsensusMsg) (outcome : Outcome) :
    Prop where
  waiting : outcome.2.Waiting valueHash (log ++ outgoing outcome.1)
  votes : ∀ x ∈ outgoing outcome.1, FirstRoundVote valueHash x

/-- A received PREPARE or COMMIT triggers its rule as soon as its tally is a quorum. -/
theorem classify_tallied (vote : FirstRoundVote valueHash m) (round : s.round = 1)
    {rule : UponRule} (kind : m.msg.type = .prepare ∧ rule = .quorumPrepares ∨
      m.msg.type = .commit ∧ rule = .quorumCommits) :
    (s.received m).classify m =
      if s.d.quorum ≤ ((s.received m).tally m.msg.type valueHash).length then
        .ok (rule, (s.received m).tally m.msg.type valueHash)
      else .ok (.nothing, []) := by
  rcases kind with ⟨type, rfl⟩ | ⟨type, rfl⟩ <;>
    simp [classify, tally, type, round, vote.round, vote.value]

/-- A vote that completes no unrecorded rule is only buffered. -/
theorem Waiting.quiet (waiting : s.Waiting valueHash log) (vote : FirstRoundVote valueHash m)
    (handled : s.handleMessage m = (.ok [], s.received m))
    (proposal : m.msg.type = .prePrepare → s.Recorded .justifiedPrePrepare)
    (quorum : m.msg.type = .prepare →
      s.d.quorum ≤ ((s.received m).tally .prepare valueHash).length →
      s.Recorded .quorumPrepares)
    (few : m.msg.type = .commit →
      ((s.received m).tally .commit valueHash).length < s.d.quorum) :
    WaitsOn valueHash log (s.handleMessage m) := by
  have config : SameConfig s (s.handleMessage m).2 := step_sameConfig s (.receive m)
  rw [handled] at config ⊢
  constructor
  · exact waiting.after vote config rfl waiting.undecided waiting.round (fun _ recorded => recorded)
      proposal quorum few fun _ recorded => Or.inl recorded
  · intro x member
    cases member

/-- A vote that completes an unrecorded rule is answered by the message of that rule. -/
theorem Waiting.answers (waiting : s.Waiting valueHash log)
    (vote : FirstRoundVote valueHash m) {copy : QBFTConsensusMsg} {rule : UponRule}
    (handled : s.handleMessage m = (.ok (List.replicate s.t.numPeers copy), next))
    (peers : 0 < s.t.numPeers) (voted : FirstRoundVote valueHash copy)
    (answer : (m.msg.type = .prePrepare ∧ rule = .justifiedPrePrepare ∧
        copy.msg.type = .prepare) ∨
      (m.msg.type = .prepare ∧ rule = .quorumPrepares ∧ copy.msg.type = .commit))
    (buffer : next.buffer = (s.received m).buffer) (undecided : next.qCommit = [])
    (round : next.round = 1) (set : next.dedupRules = s.dedupRules.set (rule, 1) true) :
    WaitsOn valueHash log (s.handleMessage m) := by
  have config : SameConfig s (s.handleMessage m).2 := step_sameConfig s (.receive m)
  rw [handled] at config ⊢
  have sent : copy ∈ List.replicate s.t.numPeers copy := List.mem_replicate.mpr ⟨peers.ne', rfl⟩
  have records := recorded_of_set set
  constructor
  · refine waiting.after vote config buffer undecided round
      (fun other recorded => (records other).mpr (Or.inl recorded)) ?_ ?_ ?_ ?_
    · intro proposes
      rcases answer with ⟨-, same, -⟩ | ⟨other, -⟩
      · exact (records _).mpr (Or.inr same.symm)
      · cases proposes.symm.trans other
    · intro prepares _
      rcases answer with ⟨other, -⟩ | ⟨-, same, -⟩
      · cases prepares.symm.trans other
      · exact (records _).mpr (Or.inr same.symm)
    · intro commits
      rcases answer with ⟨other, -⟩ | ⟨other, -⟩ <;> cases commits.symm.trans other
    · intro other recorded
      rcases (records other).mp recorded with before | rfl
      · exact Or.inl before
      · rcases answer with ⟨-, same, typed⟩ | ⟨-, same, typed⟩
        · exact Or.inr (Or.inl ⟨same, copy, sent, typed⟩)
        · exact Or.inr (Or.inr ⟨same, copy, sent, typed⟩)
  · intro x member
    rw [List.eq_of_mem_replicate member]
    exact voted

/-- A proposal is answered by a PREPARE. -/
theorem Waiting.on_prePrepare (waiting : s.Waiting valueHash log)
    (vote : FirstRoundVote valueHash m) (accepts : s.Accepts m)
    (type : m.msg.type = .prePrepare) (secret : s.t.privateKey.length = 32)
    (peers : 0 < s.t.numPeers) (sized : valueHash.length = 32) :
    WaitsOn valueHash log (s.handleMessage m) := by
  have result : (s.received m).classify m = .ok (.justifiedPrePrepare, []) := by
    simp [classify, type, vote.round, waiting.round]
  by_cases recorded : s.Recorded .justifiedPrePrepare
  · refine waiting.quiet vote
      (handleMessage_of_quiet accepts result (Or.inr (waiting.round ▸ recorded)))
      (fun _ => recorded) ?_ ?_
    · intro other
      cases type.symm.trans other
    · intro other
      cases type.symm.trans other
  · have fresh : s.dedupRules.contains (.justifiedPrePrepare, s.round) = false := by
      rw [waiting.round]
      exact Bool.eq_false_of_not_eq_true recorded
    obtain ⟨copy, success, typed, voted⟩ :=
      @Transport.broadcast_firstRound _ (s.storeValues m.values).t secret .prepare (by decide)
        s.duty s.peer _ sized peers
    have handled : s.handleMessage m = (.ok (List.replicate s.t.numPeers copy),
        s.marked m .justifiedPrePrepare) := by
      rw [handleMessage_of_classify accepts result (by decide) fresh]
      simp [uponRule, vote.value, vote.round, changeRound, waiting.round, success]
      rfl
    exact waiting.answers vote handled peers voted (Or.inl ⟨type, rfl, typed⟩) rfl
      waiting.undecided waiting.round (by rw [dedupRules_marked, waiting.round])

/-- A PREPARE that completes a quorum is answered by a COMMIT. -/
theorem Waiting.on_prepare (waiting : s.Waiting valueHash log)
    (vote : FirstRoundVote valueHash m) (accepts : s.Accepts m)
    (type : m.msg.type = .prepare) (secret : s.t.privateKey.length = 32)
    (peers : 0 < s.t.numPeers) (sized : valueHash.length = 32) :
    WaitsOn valueHash log (s.handleMessage m) := by
  have classified := classify_tallied vote waiting.round (Or.inl ⟨type, rfl⟩)
  rw [type] at classified
  have quiet : ∀ rule justification,
      (s.received m).classify m = .ok (rule, justification) →
      rule = .nothing ∨ s.dedupRules.contains (rule, s.round) = true →
      (s.d.quorum ≤ ((s.received m).tally .prepare valueHash).length →
        s.Recorded .quorumPrepares) →
      WaitsOn valueHash log (s.handleMessage m) := by
    intro rule justification result silent quorum
    refine waiting.quiet vote (handleMessage_of_quiet accepts result silent) ?_
      (fun _ => quorum) ?_
    · intro other
      cases type.symm.trans other
    · intro other
      cases type.symm.trans other
  by_cases enough : s.d.quorum ≤ ((s.received m).tally .prepare valueHash).length
  · have result := classified.trans (if_pos enough)
    by_cases recorded : s.Recorded .quorumPrepares
    · exact quiet _ _ result (Or.inr (waiting.round ▸ recorded)) fun _ => recorded
    · have fresh : s.dedupRules.contains (.quorumPrepares, s.round) = false := by
        rw [waiting.round]
        exact Bool.eq_false_of_not_eq_true recorded
      obtain ⟨copy, success, typed, voted⟩ :=
        @Transport.broadcast_firstRound _ (s.storeValues m.values).t secret .commit (by decide)
          s.duty s.peer _ sized peers
      have handled : s.handleMessage m = (.ok (List.replicate s.t.numPeers copy),
          { s.marked m .quorumPrepares with
            preparedRound := some 1
            preparedValueHash := some valueHash
            preparedJustification := (s.received m).tally .prepare valueHash }) := by
        rw [handleMessage_of_classify accepts result (by decide) fresh]
        simp [uponRule, vote.value, vote.round, waiting.round, success]
        rfl
      exact waiting.answers vote handled peers voted (Or.inr ⟨type, rfl, typed⟩) rfl
        waiting.undecided waiting.round (by rw [dedupRules_marked, waiting.round])
  · exact quiet _ _ (classified.trans (if_neg enough)) (Or.inl rfl) fun counted =>
      absurd counted enough

/-- A COMMIT either leaves the tally below a quorum or decides. -/
theorem Waiting.on_commit (waiting : s.Waiting valueHash log)
    (vote : FirstRoundVote valueHash m) (accepts : s.Accepts m)
    (type : m.msg.type = .commit) :
    WaitsOn valueHash log (s.handleMessage m) ∨
      (outgoing (s.handleMessage m).1 = [] ∧
        (s.handleMessage m).2.qCommit = (s.received m).tally .commit valueHash ∧
        s.d.quorum ≤ ((s.received m).tally .commit valueHash).length) := by
  have classified := classify_tallied vote waiting.round (Or.inr ⟨type, rfl⟩)
  rw [type] at classified
  by_cases enough : s.d.quorum ≤ ((s.received m).tally .commit valueHash).length
  · right
    have fresh : s.dedupRules.contains (.quorumCommits, s.round) = false := by
      rw [waiting.round]
      exact Bool.eq_false_of_not_eq_true waiting.unfinished
    rw [handleMessage_of_classify accepts (classified.trans (if_pos enough)) (by decide) fresh]
    exact ⟨rfl, rfl, enough⟩
  · left
    refine waiting.quiet vote (handleMessage_of_quiet accepts
      (classified.trans (if_neg enough)) (Or.inl rfl)) ?_ ?_ fun _ => Nat.not_le.mp enough
    · intro other
      cases type.symm.trans other
    · intro other
      cases type.symm.trans other

/-- A decided instance only stores the values of a vote. -/
theorem handleMessage_decided (decided : s.qCommit ≠ []) (vote : FirstRoundVote valueHash m) :
    s.handleMessage m = (.ok [], s.storeValues m.values) := by
  obtain ⟨firstCommit, more, known⟩ := List.exists_cons_of_ne_nil decided
  have plain : m.msg.type ≠ .roundChange := by
    intro change
    have type := vote.type
    simp [change] at type
  unfold handleMessage
  rw [vote.limits]
  dsimp only
  split
  · rfl
  · split
    · exact if_neg fun answer => plain answer.2
    · rename_i undecided
      exact absurd undecided decided

omit [Crypto] in
/-- A waiting instance accepts every vote for the value, a proposal only from the leader. -/
theorem Waiting.accepts (waiting : s.Waiting valueHash log) (vote : FirstRoundVote valueHash m)
    (duty : m.msg.duty = s.duty)
    (leader : m.msg.type = .prePrepare → 0 < s.d.nodes ∧ s.d.leader s.duty 1 = m.msg.peerIdx) :
    s.Accepts m := by
  refine ⟨vote.limits _, duty, waiting.undecided, ?_⟩
  rcases vote.type with type | type | type
  · rw [isJustified, type]
    dsimp only
    have leads := Definition.isLeader_eq_true_iff.mpr (leader type)
    simp [isJustifiedPrePrepare, type, vote.round, leads]
  · simp [isJustified, type]
  · simp [isJustified, type]

/-- A new instance has no vote to answer. -/
theorem waiting_new {d : Definition} (nodes : 0 < d.nodes) (t : Transport) (duty : Duty)
    (peer : Nat) (proposalValue valueHash : Bytes) (log : List QBFTConsensusMsg) :
    (new d t duty peer proposalValue).Waiting valueHash log := by
  have unrecorded : ∀ rule, ¬ (new d t duty peer proposalValue).Recorded rule :=
    fun rule recorded => Bool.false_ne_true recorded
  have none : ∀ type, (new d t duty peer proposalValue).tally type valueHash = [] :=
    fun _ => rfl
  have positive : 0 < (new d t duty peer proposalValue).d.quorum := Definition.quorum_pos nodes
  constructor
  · rfl
  · rfl
  · rintro ⟨m, member, -⟩
    cases member
  · intro enough
    rw [none] at enough
    exact absurd enough (Nat.not_le.mpr positive)
  · rw [none]
    exact positive
  · exact fun recorded => absurd recorded (unrecorded _)
  · exact fun recorded => absurd recorded (unrecorded _)
  · exact unrecorded _

/-- What a waiting instance makes of an accepted vote. -/
theorem Waiting.step (waiting : s.Waiting valueHash log) (vote : FirstRoundVote valueHash m)
    (accepts : s.Accepts m) (secret : s.t.privateKey.length = 32) (peers : 0 < s.t.numPeers)
    (sized : valueHash.length = 32) :
    WaitsOn valueHash log (s.handleMessage m) ∨
      (outgoing (s.handleMessage m).1 = [] ∧
        (s.handleMessage m).2.qCommit = (s.received m).tally .commit valueHash ∧
        s.d.quorum ≤ ((s.received m).tally .commit valueHash).length) := by
  rcases vote.type with type | type | type
  · exact Or.inl (waiting.on_prePrepare vote accepts type secret peers sized)
  · exact Or.inl (waiting.on_prepare vote accepts type secret peers sized)
  · exact waiting.on_commit vote accepts type

omit [Crypto] in
/-- Voters whose votes are buffered make up the tally. -/
theorem card_le_tally {voters : Finset Nat} {type : MsgType}
    (voted : ∀ p ∈ voters, ∃ m ∈ s.buffered, FirstRoundVote valueHash m ∧ m.msg.type = type ∧
      m.msg.peerIdx = p) : voters.card ≤ (s.tally type valueHash).length := by
  refine Nat.le_trans (Finset.card_le_card fun p member => ?_) (card_senders_le _)
  obtain ⟨m, buffered, vote, typed, sender⟩ := voted p member
  refine mem_senders.mpr ⟨m.msg, mem_votesFor.mpr ⟨?_, typed, vote.round, vote.value⟩, sender⟩
  exact mem_allMsg.mpr ⟨m, buffered, List.mem_cons_self⟩

end QBFTConsensus

open QBFTConsensus

namespace Network

/-! ## The invariant of a fault-free run -/

/-- What holds in a fault-free run without timeouts and losses. -/
structure HappyPath (k : Committee) (valueHash : Bytes) (n : Network) : Prop where
  traffic : n.Traffic k
  wired : ∀ p, k.Honest p → (n.cluster.peer p).t.numPeers = k.d.nodes ∧
    (n.cluster.peer p).t.privateKey.length = 32
  votes : ∀ m, Logged k n.cluster m → FirstRoundVote valueHash m
  progress : ∀ p, k.Honest p → (n.cluster.peer p).Waiting valueHash (n.cluster.sent p) ∨
    (n.cluster.peer p).Decided valueHash
  /-- Every message reaches every undecided peer. -/
  reaches : ∀ p, k.Honest p → (n.cluster.peer p).qCommit = [] →
    ∀ m, Logged k n.cluster m → m ∈ n.pending p
  /-- A decision leaves a quorum of COMMITs for the others. -/
  committed : ∀ p, k.Honest p → (n.cluster.peer p).qCommit ≠ [] →
    (n.cluster.history k).Committed k.system 1 valueHash
  proposed : ∃ m, Logged k n.cluster m ∧ m.msg.type = .prePrepare

section Step

variable {k : Committee} {n : Network} {valueHash : Bytes} {p : Nat}
  {remaining : List (Nat × QBFTConsensusMsg)} {m : QBFTConsensusMsg}

omit [Crypto] in
/-- An undecided peer accepts every message on its way. -/
theorem HappyPath.accepts (happy : n.HappyPath k valueHash) (honest : k.Honest p)
    (waiting : (n.cluster.peer p).Waiting valueHash (n.cluster.sent p))
    (travels : (p, m) ∈ n.inFlight) : (n.cluster.peer p).Accepts m := by
  have logged : Logged k n.cluster m := happy.traffic.flight _ travels
  obtain ⟨config, duty, -⟩ := happy.traffic.core.config p honest
  obtain ⟨sender, sent⟩ := happy.traffic.logged_header logged
  have vote := happy.votes m logged
  refine waiting.accepts vote ?_ fun proposes => ?_
  · rw [duty, ← (happy.traffic.core.config _ sender).2.1]
    exact ((happy.traffic.core.ledger _ sender).header m sent).1
  · have leader := happy.traffic.proposer _ sender m sent proposes
    rw [vote.round] at leader
    rw [config, duty]
    exact ⟨k.nodes, leader⟩

/-- A quorum of received COMMITs commits the value. -/
theorem HappyPath.committed_of_tally (happy : n.HappyPath k valueHash) (honest : k.Honest p)
    (consumes : Consumes n.inFlight p (.receive m) remaining)
    (enough : k.d.quorum ≤
      (((n.cluster.peer p).received m).tally .commit valueHash).length) :
    (n.cluster.history k).Committed k.system 1 valueHash := by
  have own : ((n.cluster.peer p).received m).tally .commit valueHash =
      (((n.cluster.peer p).received m).buffered.map QBFTConsensusMsg.msg).filter
        fun j => j.type = .commit ∧ j.round = 1 ∧ j.valueHash = some valueHash := by
    rw [tally, votesFor, allMsg_eq]
    apply filter_flatMap_votes
    intro x buffered j inside
    have logged := happy.traffic.logged_received honest consumes rfl buffered
    rw [(happy.votes x logged).justification] at inside
    cases inside
  have distinct : ((((n.cluster.peer p).received m).tally .commit valueHash).map
      QBFTMsg.peerIdx).Nodup := by
    rw [own]
    exact nodup_senders (fun j kept => ⟨(of_decide_eq_true kept).1, (of_decide_eq_true kept).2.1⟩)
      fun peer => happy.traffic.once_received honest consumes rfl (by decide) peer 1
  have senders : (senders _).card = _ := card_voters_of_nodup QBFTMsg.peerIdx distinct
  exact Cluster.quorum_votes (happy.traffic.core.authentic_received
    (happy.traffic.legal honest consumes) rfl) (senders ▸ enough)

/-- What a delivery does to the peer that receives it. -/
structure Delivered (k : Committee) (valueHash : Bytes) (n : Network) (p : Nat)
    (m : QBFTConsensusMsg) (outcome : Outcome) : Prop where
  progress : outcome.2.Waiting valueHash (n.cluster.sent p ++ outgoing outcome.1) ∨
    outcome.2.Decided valueHash
  votes : ∀ x ∈ outgoing outcome.1, FirstRoundVote valueHash x
  committed : outcome.2.qCommit ≠ [] → (n.cluster.history k).Committed k.system 1 valueHash
  buffer : outcome.2.qCommit = [] →
    outcome.2.buffer = ((n.cluster.peer p).received m).buffer

theorem HappyPath.delivered (happy : n.HappyPath k valueHash) (honest : k.Honest p)
    (sized : valueHash.length = 32)
    (consumes : Consumes n.inFlight p (.receive m) remaining) :
    Delivered k valueHash n p m ((n.cluster.peer p).handleMessage m) := by
  have travels : (p, m) ∈ n.inFlight := consumes.received rfl
  have vote := happy.votes m (happy.traffic.flight _ travels)
  obtain ⟨peers, secret⟩ := happy.wired p honest
  have positive : 0 < (n.cluster.peer p).t.numPeers := peers ▸ k.nodes
  rcases happy.progress p honest with waiting | decided
  · have accepts := happy.accepts honest waiting travels
    have buffer := buffer_handleMessage accepts
    rcases waiting.step vote accepts secret positive sized with
      waits | ⟨silent, decision, enough⟩
    · exact ⟨Or.inl waits.waiting, waits.votes,
        fun decided => absurd waits.waiting.undecided decided, fun _ => buffer⟩
    · have committed := happy.committed_of_tally honest consumes
        (by rw [← (happy.traffic.core.config p honest).1]; exact enough)
      have quorum : 0 < (n.cluster.peer p).d.quorum := by
        rw [(happy.traffic.core.config p honest).1]
        exact Definition.quorum_pos k.nodes
      refine ⟨Or.inr ⟨?_, ?_⟩, ?_, fun _ => committed, fun _ => buffer⟩
      · rw [decision]
        exact List.ne_nil_of_length_pos (Nat.lt_of_lt_of_le quorum enough)
      · rw [decision]
        exact fun j member => (mem_votesFor.mp member).2
      · intro x member
        rw [silent] at member
        cases member
  · rw [handleMessage_decided decided.nonempty vote]
    refine ⟨Or.inr ⟨decided.nonempty, decided.commits⟩, ?_,
      fun _ => happy.committed p honest decided.nonempty,
      fun undecided => absurd undecided decided.nonempty⟩
    intro x member
    cases member

/-- A copy stays ahead of a peer or moves into its buffer. -/
theorem pending_deliver (consumes : Consumes n.inFlight p (.receive m) remaining) {q : Nat}
    (buffer : q = p → ((n.cluster.peer p).handleMessage m).2.buffer =
      ((n.cluster.peer p).received m).buffer) :
    n.pending q ⊆ (n.act p (.receive m) remaining).pending q := by
  intro x member
  have others : x ∈ bound q n.inFlight →
      (q = p ∧ x = m) ∨ x ∈ bound q (n.act p (.receive m) remaining).inFlight := by
    intro travels
    cases consumes with
    | delivery split =>
        have inside := mem_bound.mp travels
        rw [split, List.mem_append, List.mem_cons, Prod.mk.injEq] at inside
        apply or_iff_not_imp_left.mpr
        intro other
        apply mem_bound.mpr
        apply List.mem_append_left
        exact List.mem_append.mpr (inside.imp_right fun later => later.resolve_left other)
  rcases eq_or_ne q p with rfl | other
  · have peer : (n.act q (.receive m) remaining).cluster.peer q =
        ((n.cluster.peer q).handleMessage m).2 := Cluster.peer_step_self
    unfold pending
    rw [peer, buffered_congr (buffer rfl)]
    rcases List.mem_append.mp member with old | travels
    · exact List.mem_append_left _ (mem_buffered_bufferMessage.mpr (Or.inl old))
    · rcases others travels with ⟨-, rfl⟩ | ahead
      · exact List.mem_append_left _ (mem_buffered_bufferMessage.mpr (Or.inr rfl))
      · exact List.mem_append_right _ ahead
  · have peer : (n.act p (.receive m) remaining).cluster.peer q = n.cluster.peer q :=
      Cluster.peer_step_ne other
    unfold pending
    rw [peer]
    rcases List.mem_append.mp member with old | travels
    · exact List.mem_append_left _ old
    · rcases others travels with ⟨same, -⟩ | ahead
      · exact absurd same other
      · exact List.mem_append_right _ ahead

/-- A sent message travels to every peer. -/
theorem sent_pending {q : Nat} {x : QBFTConsensusMsg} {event : Event}
    (sent : x ∈ sentAt (n.cluster.peer p, event))
    (inside : q < (n.cluster.peer p).t.numPeers) : x ∈ (n.act p event remaining).pending q := by
  have copies := ((n.cluster.peer p).step_effect event).eq_replicate sent
  apply List.mem_append_right
  change x ∈ bound q (remaining ++ addressed (outgoing ((n.cluster.peer p).step event).1))
  rw [bound_append, bound_addressed, copies, List.getElem?_replicate, if_pos inside]
  exact List.mem_append_right _ List.mem_cons_self

/-- A delivery keeps the run on its path. -/
theorem HappyPath.deliver (happy : n.HappyPath k valueHash) (honest : k.Honest p)
    (sized : valueHash.length = 32)
    (consumes : Consumes n.inFlight p (.receive m) remaining) :
    (n.act p (.receive m) remaining).HappyPath k valueHash := by
  have delivered := happy.delivered honest sized consumes
  have here : (n.act p (.receive m) remaining).cluster.peer p =
      ((n.cluster.peer p).handleMessage m).2 := Cluster.peer_step_self
  have there : ∀ {q}, q ≠ p → (n.act p (.receive m) remaining).cluster.peer q =
      n.cluster.peer q := fun other => Cluster.peer_step_ne other
  constructor
  · exact happy.traffic.act honest consumes
  · intro q sincere
    rcases eq_or_ne q p with rfl | other
    · have same := step_sameConfig (n.cluster.peer q) (.receive m)
      rw [here]
      exact ⟨same.numPeers.trans (happy.wired q sincere).1,
        (congrArg List.length same.privateKey).trans (happy.wired q sincere).2⟩
    · rw [there other]
      exact happy.wired q sincere
  · intro x logged
    rcases logged.cases_act with old | new
    · exact happy.votes x old
    · exact delivered.votes x new
  · intro q sincere
    rcases eq_or_ne q p with rfl | other
    · have log : (n.act q (.receive m) remaining).cluster.sent q =
          n.cluster.sent q ++ outgoing ((n.cluster.peer q).handleMessage m).1 :=
        Cluster.sent_step_self
      rw [here, log]
      exact delivered.progress
    · have log : (n.act p (.receive m) remaining).cluster.sent q = n.cluster.sent q :=
        Cluster.sent_step_ne other
      rw [there other, log]
      exact happy.progress q sincere
  · intro q sincere undecided x logged
    have before : (n.cluster.peer q).qCommit = [] ∧ (q = p →
        ((n.cluster.peer p).handleMessage m).2.buffer =
          ((n.cluster.peer p).received m).buffer) := by
      rcases eq_or_ne q p with rfl | other
      · rw [here] at undecided
        refine ⟨?_, fun _ => delivered.buffer undecided⟩
        by_contra decided
        exact decided ((((n.cluster.peer q).step_effect (.receive m)).qCommit_of_decided
          decided).symm.trans undecided)
      · rw [there other] at undecided
        exact ⟨undecided, fun same => absurd same other⟩
    rcases logged.cases_act with old | new
    · exact pending_deliver consumes before.2 (happy.reaches q sincere before.1 x old)
    · exact sent_pending new ((happy.wired p honest).1.symm ▸ sincere.1)
  · intro q sincere decided
    rcases eq_or_ne q p with rfl | other
    · rw [here] at decided
      exact Cluster.committed_step (delivered.committed decided)
    · rw [there other] at decided
      exact Cluster.committed_step (happy.committed q sincere decided)
  · obtain ⟨x, logged, proposes⟩ := happy.proposed
    exact ⟨x, logged.act, proposes⟩

omit [Crypto] in
/-- Every message is in the buffer of an undecided peer once nothing is in flight. -/
theorem HappyPath.hears (happy : n.HappyPath k valueHash) (empty : n.inFlight = [])
    (honest : k.Honest p) (undecided : (n.cluster.peer p).qCommit = [])
    (logged : Logged k n.cluster m) : m ∈ (n.cluster.peer p).buffered := by
  have pending := happy.reaches p honest undecided m logged
  rw [Network.pending, empty, bound, List.filter_nil, List.map_nil, List.append_nil] at pending
  exact pending

omit [Crypto] in
/-- The votes of a set of peers make up a tally once nothing is in flight. -/
theorem HappyPath.card_le_tally (happy : n.HappyPath k valueHash) (empty : n.inFlight = [])
    (honest : k.Honest p) (undecided : (n.cluster.peer p).qCommit = []) {type : MsgType}
    {voters : Finset Nat} (inside : ∀ q ∈ voters, k.Honest q)
    (voted : ∀ q ∈ voters, ∃ m ∈ n.cluster.sent q, m.msg.type = type) :
    voters.card ≤ ((n.cluster.peer p).tally type valueHash).length := by
  apply QBFTConsensus.card_le_tally
  intro q member
  have sincere := inside q member
  obtain ⟨x, sent, typed⟩ := voted q member
  have sender := ((happy.traffic.core.ledger q sincere).header x sent).2
  exact ⟨x, happy.hears empty honest undecided ⟨q, sincere, sent⟩,
    happy.votes x ⟨q, sincere, sent⟩, typed,
    sender.trans (happy.traffic.core.config q sincere).2.2⟩

omit [Crypto] in
/-- Once nothing is in flight every peer has decided. -/
theorem HappyPath.decided (happy : n.HappyPath k valueHash)
    (everyone : ∀ q < k.d.nodes, k.Honest q) (empty : n.inFlight = []) (honest : k.Honest p) :
    (n.cluster.peer p).Decided valueHash := by
  apply (happy.progress p honest).resolve_left
  intro stuck
  have config : ∀ q, k.Honest q → (n.cluster.peer q).d = k.d :=
    fun q sincere => (happy.traffic.core.config q sincere).1
  have few := stuck.few
  rw [config p honest] at few
  by_cases someone : ∃ q, k.Honest q ∧ (n.cluster.peer q).qCommit ≠ []
  · -- the COMMITs behind a decision reach everyone
    obtain ⟨q, sincere, decided⟩ := someone
    obtain ⟨voters, isQuorum, commits⟩ := happy.committed q sincere decided
    have inside : ∀ who ∈ voters, k.Honest who := fun who member =>
      everyone who (Finset.mem_range.mp (isQuorum.1 member))
    have counted := happy.card_le_tally empty honest stuck.undecided inside fun who member => by
      obtain ⟨x, sent, type, -⟩ := commits who member (k.honest_iff.mpr (inside who member))
      exact ⟨x, sent, type⟩
    exact absurd (Nat.le_trans isQuorum.2 counted) (Nat.not_le.mpr few)
  · -- otherwise everyone waits, and has sent its PREPARE and its COMMIT
    have waiting : ∀ q, k.Honest q →
        (n.cluster.peer q).Waiting valueHash (n.cluster.sent q) := fun q sincere =>
      (happy.progress q sincere).resolve_right fun decided =>
        someone ⟨q, sincere, decided.nonempty⟩
    have inside : ∀ q ∈ Finset.range k.d.nodes, k.Honest q := fun q member =>
      everyone q (Finset.mem_range.mp member)
    have counted : ∀ {type : MsgType},
        (∀ q, k.Honest q → ∃ m ∈ n.cluster.sent q, m.msg.type = type) → ∀ q, k.Honest q →
        k.d.quorum ≤ ((n.cluster.peer q).tally type valueHash).length := by
      intro type voted q sincere
      have all := happy.card_le_tally empty sincere (waiting q sincere).undecided inside
        fun who member => voted who (inside who member)
      rw [Finset.card_range] at all
      exact Nat.le_trans Definition.quorum_le_nodes all
    have prepares : ∀ q, k.Honest q → ∃ m ∈ n.cluster.sent q, m.msg.type = .prepare := by
      intro q sincere
      obtain ⟨x, logged, proposes⟩ := happy.proposed
      have heard := happy.hears empty sincere (waiting q sincere).undecided logged
      exact (waiting q sincere).prepare ((waiting q sincere).proposal ⟨x, heard, proposes⟩)
    have commits : ∀ q, k.Honest q → ∃ m ∈ n.cluster.sent q, m.msg.type = .commit := by
      intro q sincere
      have enough := counted prepares q sincere
      rw [← config q sincere] at enough
      exact (waiting q sincere).commit ((waiting q sincere).quorum enough)
    exact absurd (counted commits p honest) (Nat.not_le.mpr few)

end Step

/-! ## Runs -/

section Runs

variable {k : Committee} {n : Network} {transport : Nat → Transport} {proposal : Nat → Bytes}

theorem happyPath_start (everyone : ∀ q < k.d.nodes, k.Honest q)
    (wired : ∀ p < k.d.nodes, (transport p).numPeers = k.d.nodes ∧
      (transport p).privateKey.length = 32) :
    (start k.d k.duty transport proposal).HappyPath k
      (hashValue (proposal (k.d.leader k.duty 1))) := by
  have inside := Definition.leader_lt k.nodes k.duty 1
  have leads := everyone _ inside
  generalize leader : k.d.leader k.duty 1 = l at inside leads
  obtain ⟨copy, success, proposes, vote⟩ := @Transport.broadcast_firstRound _
    (QBFTConsensus.new k.d (transport l) k.duty l (proposal l)).t (wired l inside).2 .prePrepare
    (by decide) k.duty l _ (length_hashValue (proposal l)) ((wired l inside).1.symm ▸ k.nodes)
  have log : (Cluster.start k.d k.duty transport proposal).sent l =
      List.replicate k.d.nodes copy := by
    have same : (QBFTConsensus.new k.d (transport l) k.duty l (proposal l)).t.numPeers =
        k.d.nodes := (wired l inside).1
    rw [same] at success
    simp only [Cluster.start, leader, if_true, Transport.broadcastPrePrepare, success, outgoing_ok]
  have only : ∀ m, Logged k (Cluster.start k.d k.duty transport proposal) m → m = copy := by
    rintro m ⟨p, -, member⟩
    obtain ⟨rfl, -⟩ := Cluster.mem_sent_start member
    rw [leader, log] at member
    exact List.eq_of_mem_replicate member
  constructor
  · exact traffic_start (leader.symm ▸ leads) transport proposal
  · exact fun p honest => wired p honest.1
  · intro m logged
    rw [only m logged]
    exact vote
  · exact fun p _ => Or.inl (waiting_new k.nodes _ _ _ _ _ _)
  · intro p honest _ m logged
    rw [only m logged]
    apply List.mem_append_right
    change copy ∈ bound p (addressed ((Cluster.start k.d k.duty transport proposal).sent _))
    rw [leader, log, bound_addressed, List.getElem?_replicate, if_pos honest.1]
    exact List.mem_cons_self
  · exact fun p _ decided => absurd rfl decided
  · refine ⟨copy, ⟨l, leads, ?_⟩, proposes⟩
    change copy ∈ (Cluster.start k.d k.duty transport proposal).sent l
    rw [log]
    exact List.mem_replicate.mpr ⟨k.nodes.ne', rfl⟩

/-- Every reachable state of a fault-free run is on the path. -/
theorem happyPath_reachable (everyone : ∀ q < k.d.nodes, k.Honest q)
    (wired : ∀ p < k.d.nodes, (transport p).numPeers = k.d.nodes ∧
      (transport p).privateKey.length = 32)
    (reached : Relation.ReflTransGen (Delivers k.d.nodes)
      (start k.d k.duty transport proposal) n) :
    n.HappyPath k (hashValue (proposal (k.d.leader k.duty 1))) := by
  refine Machine.reachable_invariant (fun state next happy delivers => ?_)
    (happyPath_start everyone wired) reached
  cases delivers with
  | deliver inside split =>
      exact happy.deliver (everyone _ inside) (length_hashValue _) (.delivery split)

/-- Fault-free runs decide: once no copy is in flight, every peer holds COMMITs of the first
round for the proposal of its leader. -/
theorem run_decides {d : Definition} (nodes : 0 < d.nodes) (duty : Duty)
    (transport : Nat → Transport) (proposal : Nat → Bytes)
    (wired : ∀ p < d.nodes, (transport p).numPeers = d.nodes ∧
      (transport p).privateKey.length = 32)
    (reached : Relation.ReflTransGen (Delivers d.nodes) (start d duty transport proposal) n)
    (empty : n.inFlight = []) :
    ∀ p < d.nodes, (n.cluster.peer p).qCommit ≠ [] ∧ ∀ j ∈ (n.cluster.peer p).qCommit,
      j.type = .commit ∧ j.round = 1 ∧
        j.valueHash = some (hashValue (proposal (d.leader duty 1))) := by
  have everyone : ∀ q < d.nodes, (Committee.faultFree d duty nodes).Honest q :=
    fun q inside => honest_faultFree duty nodes inside
  have happy := happyPath_reachable (k := Committee.faultFree d duty nodes) everyone wired reached
  intro p inside
  have decided := happy.decided everyone empty (everyone p inside)
  exact ⟨decided.nonempty, decided.commits⟩

end Runs

/-- The given number of copies has been delivered, oldest first. -/
def FourPeersNetwork.delivered (copies : Nat) : Network :=
  letI := constantCrypto
  FourPeersNetwork.network.scheduled FourPeers.definition.nodes (List.replicate copies .deliver)

omit [Crypto] in
theorem FourPeersNetwork.reached_delivered (copies : Nat) :
    letI := constantCrypto
    Relation.ReflTransGen (Delivers FourPeers.definition.nodes) FourPeersNetwork.network
      (FourPeersNetwork.delivered copies) := by
  let := constantCrypto
  exact delivered_scheduled _ _ copies

omit [Crypto] in
/-- Four peers deliver the four copies of the proposal, the sixteen of their PREPAREs and the
sixteen of their COMMITs, and all decide. -/
theorem run_decides_fourPeers :
    (FourPeersNetwork.delivered 36).inFlight = [] ∧
      ∀ p < 4, ((FourPeersNetwork.delivered 36).cluster.peer p).qCommit ≠ [] ∧
        ∀ j ∈ ((FourPeersNetwork.delivered 36).cluster.peer p).qCommit,
          j.type = .commit ∧ j.round = 1 ∧ j.valueHash = some FourPeers.proposalHash := by
  let := constantCrypto
  have empty : (FourPeersNetwork.delivered 36).inFlight = [] := by decide +kernel
  have hash : hashValue [7] = FourPeers.proposalHash := by decide +kernel
  rw [← hash]
  refine ⟨empty, ?_⟩
  exact run_decides (d := FourPeers.definition) (by decide) FourPeers.attesterDuty
    (fun _ => FourPeers.transport) (fun p => [7 + p.toUInt8]) (fun _ _ => by decide)
    (FourPeersNetwork.reached_delivered 36) empty

end Network

end DvSpec.Consensus
