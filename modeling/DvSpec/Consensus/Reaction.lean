import DvSpec.Consensus.Selection

/-!
# Everything one message can do

`handleMessage` is inverted once: a message is refused, ignored, answered by a
decided instance, buffered without effect, or it triggers one upon rule.  All
invariants of an instance are derived from this description.
-/

namespace DvSpec.Consensus

open DvSpec.Library

/-- The messages an answer hands to the network. -/
def outgoing (answer : Except PyError (List QBFTConsensusMsg)) : List QBFTConsensusMsg :=
  match answer with
  | .ok sent => sent
  | .error _ => []

@[simp]
theorem outgoing_ok (sent : List QBFTConsensusMsg) : outgoing (.ok sent) = sent := rfl

@[simp]
theorem outgoing_error (error : PyError) : outgoing (.error error) = [] := rfl

theorem eq_ok_of_mem_outgoing {answer : Except PyError (List QBFTConsensusMsg)}
    {copy : QBFTConsensusMsg} (member : copy ∈ outgoing answer) :
    answer = .ok (outgoing answer) := by
  cases answer with
  | error error => cases member
  | ok sent => rfl

namespace QBFTConsensus

/-! ## The buffer -/

/-- The buffered main messages. -/
def buffered (s : QBFTConsensus) : List QBFTConsensusMsg := s.buffer.values.flatten

theorem flatten_eq (s : QBFTConsensus) : s.flatten = s.buffered.flatMap unfoldMessage := by
  simp only [flatten, buffered, List.flatMap_def, List.map_flatten, List.flatten_flatten,
    List.map_map, Function.comp_def]

theorem perm_buffered (s : QBFTConsensus) (consensusMsg : QBFTConsensusMsg) :
    (s.bufferMessage consensusMsg).buffered.Perm (s.buffered ++ [consensusMsg]) :=
  Dict.perm_flatten_values_append _ _ _

/-- The votes a consensus message carries: its own and its justifications. -/
def votes (consensusMsg : QBFTConsensusMsg) : List QBFTMsg :=
  consensusMsg.msg :: consensusMsg.justification

theorem map_msg_unfoldMessage (consensusMsg : QBFTConsensusMsg) :
    (unfoldMessage consensusMsg).map QBFTConsensusMsg.msg = votes consensusMsg := by
  simp [unfoldMessage, votes, Function.comp_def]

theorem allMsg_eq (s : QBFTConsensus) : s.allMsg = s.buffered.flatMap votes := by
  rw [allMsg, flatten_eq, List.map_flatMap]
  exact List.flatMap_congr fun consensusMsg _ => map_msg_unfoldMessage consensusMsg

theorem perm_allMsg (s : QBFTConsensus) (consensusMsg : QBFTConsensusMsg) :
    (s.bufferMessage consensusMsg).allMsg.Perm (s.allMsg ++ votes consensusMsg) := by
  rw [allMsg_eq, allMsg_eq]
  have collected := (s.perm_buffered consensusMsg).flatMap_right votes
  simpa using collected

theorem mem_buffered_bufferMessage {s : QBFTConsensus} {consensusMsg other : QBFTConsensusMsg} :
    other ∈ (s.bufferMessage consensusMsg).buffered ↔
      other ∈ s.buffered ∨ other = consensusMsg := by
  rw [(s.perm_buffered consensusMsg).mem_iff, List.mem_append, List.mem_singleton]

theorem mem_allMsg_bufferMessage {s : QBFTConsensus} {consensusMsg : QBFTConsensusMsg}
    {j : QBFTMsg} :
    j ∈ (s.bufferMessage consensusMsg).allMsg ↔ j ∈ s.allMsg ∨ j ∈ votes consensusMsg := by
  rw [(s.perm_allMsg consensusMsg).mem_iff, List.mem_append]

theorem mem_allMsg {s : QBFTConsensus} {j : QBFTMsg} :
    j ∈ s.allMsg ↔ ∃ consensusMsg ∈ s.buffered, j ∈ votes consensusMsg := by
  rw [allMsg_eq, List.mem_flatMap]

/-! ## Round changes -/

@[simp]
theorem round_changeRound (s : QBFTConsensus) (r : Nat) : (s.changeRound r).round = r := by
  unfold changeRound
  split
  · rename_i same
    exact same.symm
  · rfl

/-- A round change touches nothing but the round and the deduplication of rules. -/
theorem changeRound_eq (s : QBFTConsensus) (r : Nat) :
    s.changeRound r = { s with round := r, dedupRules := (s.changeRound r).dedupRules } := by
  unfold changeRound
  split
  · rename_i same
    subst same
    rfl
  · rfl

section Frame

variable (s : QBFTConsensus) (r : Nat)

@[simp] theorem d_changeRound : (s.changeRound r).d = s.d := by rw [changeRound_eq]
@[simp] theorem t_changeRound : (s.changeRound r).t = s.t := by rw [changeRound_eq]
@[simp] theorem duty_changeRound : (s.changeRound r).duty = s.duty := by rw [changeRound_eq]
@[simp] theorem peer_changeRound : (s.changeRound r).peer = s.peer := by rw [changeRound_eq]
@[simp] theorem proposalValue_changeRound :
    (s.changeRound r).proposalValue = s.proposalValue := by rw [changeRound_eq]
@[simp] theorem preparedRound_changeRound :
    (s.changeRound r).preparedRound = s.preparedRound := by rw [changeRound_eq]
@[simp] theorem preparedValueHash_changeRound :
    (s.changeRound r).preparedValueHash = s.preparedValueHash := by rw [changeRound_eq]
@[simp] theorem preparedJustification_changeRound :
    (s.changeRound r).preparedJustification = s.preparedJustification := by rw [changeRound_eq]
@[simp] theorem qCommit_changeRound : (s.changeRound r).qCommit = s.qCommit := by
  rw [changeRound_eq]
@[simp] theorem buffer_changeRound : (s.changeRound r).buffer = s.buffer := by
  rw [changeRound_eq]

end Frame

theorem dedupRules_changeRound_self (s : QBFTConsensus) :
    (s.changeRound s.round).dedupRules = s.dedupRules := by
  simp [changeRound]

theorem dedupRules_changeRound_ne {s : QBFTConsensus} {r : Nat} (moved : r ≠ s.round) :
    (s.changeRound r).dedupRules = Dict.empty := by
  simp [changeRound, moved]

/-! ## Classification -/

/-- What a triggered rule says about the message, the state and the justification. -/
def Classified (s : QBFTConsensus) (consensusMsg : QBFTConsensusMsg)
    (justification : List QBFTMsg) : UponRule → Prop
  | .nothing => False
  | .roundTimeout => False
  | .justifiedDecided =>
      consensusMsg.msg.type = .decided ∧ justification = consensusMsg.justification
  | .justifiedPrePrepare =>
      consensusMsg.msg.type = .prePrepare ∧ s.round ≤ consensusMsg.msg.round ∧
        justification = []
  | .quorumPrepares =>
      consensusMsg.msg.type = .prepare ∧ consensusMsg.msg.round = s.round ∧
        justification =
          votesFor .prepare s.round consensusMsg.msg.valueHash s.allMsg ∧
        s.d.quorum ≤ justification.length
  | .quorumCommits =>
      consensusMsg.msg.type = .commit ∧ consensusMsg.msg.round = s.round ∧
        justification = votesFor .commit s.round consensusMsg.msg.valueHash s.allMsg ∧
        s.d.quorum ≤ justification.length
  | .fPlus1RoundChanges =>
      consensusMsg.msg.type = .roundChange ∧ s.round < consensusMsg.msg.round ∧
        justification =
          (highestBySource s.round (s.d.faulty + 1) s.allMsg Dict.empty).values ∧
        s.d.faulty + 1 ≤ justification.length
  | .quorumRoundChanges =>
      consensusMsg.msg.type = .roundChange ∧ consensusMsg.msg.round = s.round ∧
        s.justifiedQrc s.round = some justification ∧
        0 < s.d.nodes ∧ s.d.leader s.duty s.round = s.peer
  | .unjustQuorumRoundChanges =>
      consensusMsg.msg.type = .roundChange ∧ consensusMsg.msg.round = s.round

theorem classified_of_classifyRoundChange {s : QBFTConsensus} {consensusMsg : QBFTConsensusMsg}
    (change : consensusMsg.msg.type = .roundChange) {rule : UponRule}
    {justification : List QBFTMsg} (some : rule ≠ .nothing)
    (result : s.classifyRoundChange consensusMsg.msg = .ok (rule, justification)) :
    s.Classified consensusMsg justification rule := by
  unfold classifyRoundChange at result
  dsimp only at result
  split at result
  · cases result
    exact absurd rfl some
  · rename_i notPast
    split at result
    · rename_i future
      split at result
      · cases result
        exact absurd rfl some
      · rename_i enough
        cases result
        refine ⟨change, future, rfl, ?_⟩
        rw [Dict.length_values]
        exact Int.not_lt.mp enough
    · rename_i notFuture
      have current : consensusMsg.msg.round = s.round := by omega
      split at result
      · cases result
        exact absurd rfl some
      · split at result
        · cases result
          exact ⟨change, current⟩
        · rename_i justified found
          split at result
          · cases result
          · cases result
            exact absurd rfl some
          · rename_i leader
            cases result
            rw [current] at found leader
            exact ⟨change, current, found, Definition.isLeader_eq_true_iff.mp leader⟩

/-- Every rule but the empty one was triggered for its stated reason. -/
theorem classified_of_classify {s : QBFTConsensus} {consensusMsg : QBFTConsensusMsg}
    {rule : UponRule} {justification : List QBFTMsg} (some : rule ≠ .nothing)
    (result : s.classify consensusMsg = .ok (rule, justification)) :
    s.Classified consensusMsg justification rule := by
  unfold classify at result
  dsimp only at result
  split at result
  · rename_i type
    cases result
    exact ⟨type, rfl⟩
  · rename_i type
    split at result
    · cases result
      exact absurd rfl some
    · rename_i notPast
      cases result
      exact ⟨type, Nat.not_lt.mp notPast, rfl⟩
  · rename_i type
    split at result
    · cases result
      exact absurd rfl some
    · rename_i current
      split at result
      · rename_i enough
        cases result
        rw [not_not.mp current] at enough ⊢
        exact ⟨type, not_not.mp current, rfl, enough⟩
      · cases result
        exact absurd rfl some
  · rename_i type
    split at result
    · cases result
      exact absurd rfl some
    · rename_i current
      split at result
      · rename_i enough
        cases result
        rw [not_not.mp current] at enough ⊢
        exact ⟨type, not_not.mp current, rfl, enough⟩
      · cases result
        exact absurd rfl some
  · rename_i type
    exact classified_of_classifyRoundChange type some result

/-! ## Reactions -/

variable [Crypto]

/-- The guards a message passes before it is buffered. -/
structure Accepts (s : QBFTConsensus) (consensusMsg : QBFTConsensusMsg) : Prop where
  limits : verifyMsgLimits consensusMsg s.d.nodes = .ok ()
  duty : consensusMsg.msg.duty = s.duty
  undecided : s.qCommit = []
  justified : s.isJustified consensusMsg = .ok true

/-- The state in which an accepted message is classified. -/
def received (s : QBFTConsensus) (consensusMsg : QBFTConsensusMsg) : QBFTConsensus :=
  (s.storeValues consensusMsg.values).bufferMessage consensusMsg

/-- The state in which a triggered rule is executed. -/
def marked (s : QBFTConsensus) (consensusMsg : QBFTConsensusMsg) (rule : UponRule) :
    QBFTConsensus :=
  { s.received consensusMsg with dedupRules := s.dedupRules.set (rule, s.round) true }

section Frame

variable (s : QBFTConsensus) (consensusMsg : QBFTConsensusMsg) (rule : UponRule)

@[simp] theorem d_received : (s.received consensusMsg).d = s.d := rfl
@[simp] theorem duty_received : (s.received consensusMsg).duty = s.duty := rfl
@[simp] theorem peer_received : (s.received consensusMsg).peer = s.peer := rfl
@[simp] theorem proposalValue_received :
    (s.received consensusMsg).proposalValue = s.proposalValue := rfl
@[simp] theorem round_received : (s.received consensusMsg).round = s.round := rfl
@[simp] theorem preparedRound_received :
    (s.received consensusMsg).preparedRound = s.preparedRound := rfl
@[simp] theorem preparedValueHash_received :
    (s.received consensusMsg).preparedValueHash = s.preparedValueHash := rfl
@[simp] theorem preparedJustification_received :
    (s.received consensusMsg).preparedJustification = s.preparedJustification := rfl
@[simp] theorem qCommit_received : (s.received consensusMsg).qCommit = s.qCommit := rfl
@[simp] theorem t_received :
    (s.received consensusMsg).t = (s.storeValues consensusMsg.values).t := rfl
@[simp] theorem dedupRules_received : (s.received consensusMsg).dedupRules = s.dedupRules := rfl

@[simp] theorem d_marked : (s.marked consensusMsg rule).d = s.d := rfl
@[simp] theorem duty_marked : (s.marked consensusMsg rule).duty = s.duty := rfl
@[simp] theorem peer_marked : (s.marked consensusMsg rule).peer = s.peer := rfl
@[simp] theorem proposalValue_marked :
    (s.marked consensusMsg rule).proposalValue = s.proposalValue := rfl
@[simp] theorem round_marked : (s.marked consensusMsg rule).round = s.round := rfl
@[simp] theorem preparedRound_marked :
    (s.marked consensusMsg rule).preparedRound = s.preparedRound := rfl
@[simp] theorem preparedValueHash_marked :
    (s.marked consensusMsg rule).preparedValueHash = s.preparedValueHash := rfl
@[simp] theorem preparedJustification_marked :
    (s.marked consensusMsg rule).preparedJustification = s.preparedJustification := rfl
@[simp] theorem qCommit_marked : (s.marked consensusMsg rule).qCommit = s.qCommit := rfl
@[simp] theorem t_marked :
    (s.marked consensusMsg rule).t = (s.storeValues consensusMsg.values).t := rfl
@[simp] theorem buffer_marked :
    (s.marked consensusMsg rule).buffer = (s.received consensusMsg).buffer := rfl
@[simp] theorem dedupRules_marked :
    (s.marked consensusMsg rule).dedupRules = s.dedupRules.set (rule, s.round) true := rfl

end Frame

theorem handleMessage_of_accepts {s : QBFTConsensus} {consensusMsg : QBFTConsensusMsg}
    (accepts : s.Accepts consensusMsg) :
    s.handleMessage consensusMsg = (s.storeValues consensusMsg.values).react consensusMsg := by
  have justified : (s.storeValues consensusMsg.values).isJustified consensusMsg = .ok true :=
    accepts.justified
  have undecided : (s.storeValues consensusMsg.values).qCommit = [] := accepts.undecided
  have duty : consensusMsg.msg.duty = (s.storeValues consensusMsg.values).duty := accepts.duty
  unfold handleMessage
  rw [accepts.limits]
  simp only [duty, undecided, justified, ne_eq, not_true, if_false]

/-- An accepted message that triggers an unrecorded rule executes it. -/
theorem handleMessage_of_classify {s : QBFTConsensus} {consensusMsg : QBFTConsensusMsg}
    (accepts : s.Accepts consensusMsg) {rule : UponRule} {justification : List QBFTMsg}
    (result : (s.received consensusMsg).classify consensusMsg = .ok (rule, justification))
    (some : rule ≠ .nothing) (fresh : s.dedupRules.contains (rule, s.round) = false) :
    s.handleMessage consensusMsg =
      (s.marked consensusMsg rule).uponRule rule consensusMsg.msg justification := by
  rw [handleMessage_of_accepts accepts]
  unfold react
  have classified : ((s.storeValues consensusMsg.values).bufferMessage consensusMsg).classify
      consensusMsg = .ok (rule, justification) := result
  simp only [classified, some, if_false]
  exact if_neg (Bool.eq_false_iff.mp fresh)

/-- An accepted message that triggers no rule, or a recorded one, is only buffered. -/
theorem handleMessage_of_quiet {s : QBFTConsensus} {consensusMsg : QBFTConsensusMsg}
    (accepts : s.Accepts consensusMsg) {rule : UponRule} {justification : List QBFTMsg}
    (result : (s.received consensusMsg).classify consensusMsg = .ok (rule, justification))
    (quiet : rule = .nothing ∨ s.dedupRules.contains (rule, s.round) = true) :
    s.handleMessage consensusMsg = (.ok [], s.received consensusMsg) := by
  rw [handleMessage_of_accepts accepts]
  unfold react
  have classified : ((s.storeValues consensusMsg.values).bufferMessage consensusMsg).classify
      consensusMsg = .ok (rule, justification) := result
  simp only [classified]
  split
  · rfl
  · rename_i some
    exact if_pos (quiet.resolve_left some)

/-- An accepted message triggers a rule that was not triggered in this round before. -/
structure Fires (s : QBFTConsensus) (consensusMsg : QBFTConsensusMsg) (rule : UponRule)
    (justification : List QBFTMsg) : Prop extends Accepts s consensusMsg where
  classified : (s.received consensusMsg).Classified consensusMsg justification rule
  fresh : s.dedupRules.contains (rule, s.round) = false

/-- Everything one event can do to an instance. -/
inductive Effect (s : QBFTConsensus) : Event → Outcome → Prop where
  /-- The event is refused or ignored, apart from values and resend counters. -/
  | idle {event : Event} (answer : Except PyError (List QBFTConsensusMsg))
      (silent : outgoing answer = []) (values : List Bytes)
      (decidedResends : Dict Nat (Nat × Nat)) :
      Effect s event (answer, { s.storeValues values with decidedResends })
  /-- A decided instance repeats its decision. -/
  | resent {consensusMsg : QBFTConsensusMsg} (firstCommit : QBFTMsg) (more : List QBFTMsg)
      (decided : s.qCommit = firstCommit :: more) (valueHash : Bytes)
      (known : firstCommit.valueHash = some valueHash)
      (decidedResends : Dict Nat (Nat × Nat)) :
      Effect s (.receive consensusMsg)
        ((s.storeValues consensusMsg.values).t.broadcastMessage .decided s.duty s.peer s.round
          valueHash s.qCommit, { s.storeValues consensusMsg.values with decidedResends })
  /-- The message is buffered and triggers nothing. -/
  | kept {consensusMsg : QBFTConsensusMsg} (answer : Except PyError (List QBFTConsensusMsg))
      (silent : outgoing answer = []) (accepts : s.Accepts consensusMsg) :
      Effect s (.receive consensusMsg) (answer, s.received consensusMsg)
  /-- The message triggers a rule that records itself and does nothing else. -/
  | noted {consensusMsg : QBFTConsensusMsg} (rule : UponRule)
      (answer : Except PyError (List QBFTConsensusMsg)) (silent : outgoing answer = [])
      (accepts : s.Accepts consensusMsg) :
      Effect s (.receive consensusMsg) (answer, s.marked consensusMsg rule)
  | prePrepared {consensusMsg : QBFTConsensusMsg}
      (fires : s.Fires consensusMsg .justifiedPrePrepare []) :
      Effect s (.receive consensusMsg)
        (match consensusMsg.msg.valueHash with
          | none => .ok []
          | some valueHash =>
              (s.storeValues consensusMsg.values).t.broadcastMessage .prepare s.duty s.peer
                consensusMsg.msg.round valueHash,
          (s.marked consensusMsg .justifiedPrePrepare).changeRound consensusMsg.msg.round)
  | prepared {consensusMsg : QBFTConsensusMsg} {justification : List QBFTMsg}
      (fires : s.Fires consensusMsg .quorumPrepares justification) :
      Effect s (.receive consensusMsg)
        (match consensusMsg.msg.valueHash with
          | none => .ok []
          | some valueHash =>
              (s.storeValues consensusMsg.values).t.broadcastMessage .commit s.duty s.peer
                s.round valueHash,
          { s.marked consensusMsg .quorumPrepares with
            preparedRound := some s.round
            preparedValueHash := consensusMsg.msg.valueHash
            preparedJustification := justification })
  | committed {consensusMsg : QBFTConsensusMsg} {justification : List QBFTMsg}
      (fires : s.Fires consensusMsg .quorumCommits justification) :
      Effect s (.receive consensusMsg)
        (.ok [], { s.marked consensusMsg .quorumCommits with qCommit := justification })
  | adopted {consensusMsg : QBFTConsensusMsg}
      (fires : s.Fires consensusMsg .justifiedDecided consensusMsg.justification) :
      Effect s (.receive consensusMsg)
        (.ok [], { (s.marked consensusMsg .justifiedDecided).changeRound consensusMsg.msg.round
          with qCommit := consensusMsg.justification })
  | jumped {consensusMsg : QBFTConsensusMsg} {justification : List QBFTMsg} {rmin : Nat}
      (fires : s.Fires consensusMsg .fPlus1RoundChanges justification)
      (future : s.round < rmin) (least : ∃ j ∈ justification, j.round = rmin) :
      Effect s (.receive consensusMsg)
        ((s.storeValues consensusMsg.values).t.broadcastRoundChange s.duty s.peer rmin
          s.preparedRound s.preparedValueHash s.preparedJustification,
          (s.marked consensusMsg .fPlus1RoundChanges).changeRound rmin)
  | proposed {consensusMsg : QBFTConsensusMsg} {justification : List QBFTMsg}
      (fires : s.Fires consensusMsg .quorumRoundChanges justification) :
      Effect s (.receive consensusMsg)
        ((s.storeValues consensusMsg.values).uponQuorumRoundChanges justification,
          s.marked consensusMsg .quorumRoundChanges)
  | timedOut (undecided : s.qCommit = []) :
      Effect s .timeout
        (s.t.broadcastRoundChange s.duty s.peer (s.round + 1) s.preparedRound
          s.preparedValueHash s.preparedJustification, s.changeRound (s.round + 1))

/-! ## The inversion -/

omit [Crypto] in
/-- The smallest of a list of future rounds is one of them. -/
theorem smallestRound_spec {current : Nat} (justification : List QBFTMsg) {rmin : Option Nat}
    {result : Nat} (found : smallestRound current justification rmin = .ok (some result)) :
    rmin = some result ∨ current < result ∧ ∃ j ∈ justification, j.round = result := by
  induction justification generalizing rmin with
  | nil =>
      cases found
      exact Or.inl rfl
  | cons j rest ih =>
      unfold smallestRound at found
      split at found
      · cases found
      · split at found
        · cases found
        · rename_i future
          have here : some result = some j.round → rmin = some result ∨
              current < result ∧ ∃ k ∈ j :: rest, k.round = result := by
            intro same
            cases same
            exact Or.inr ⟨Nat.not_le.mp future, j, List.mem_cons_self, rfl⟩
          rcases ih found with start | ⟨beyond, k, member, same⟩
          · cases rmin with
            | none => exact here start.symm
            | some smallest =>
                dsimp only at start
                split at start
                · exact here start.symm
                · exact Or.inl start
          · exact Or.inr ⟨beyond, k, List.mem_cons_of_mem _ member, same⟩

/-- A triggered rule has one of the listed effects. -/
theorem effect_of_fires {s : QBFTConsensus} {consensusMsg : QBFTConsensusMsg} {rule : UponRule}
    {justification : List QBFTMsg} (fires : s.Fires consensusMsg rule justification) :
    s.Effect (.receive consensusMsg)
      ((s.marked consensusMsg rule).uponRule rule consensusMsg.msg justification) := by
  have classified := fires.classified
  cases rule with
  | nothing => exact classified.elim
  | roundTimeout => exact classified.elim
  | unjustQuorumRoundChanges => exact .noted _ (.ok []) rfl fires.toAccepts
  | quorumRoundChanges => exact .proposed fires
  | quorumCommits =>
      obtain ⟨-, current, -⟩ := classified
      have same : (s.marked consensusMsg .quorumCommits).changeRound consensusMsg.msg.round =
          s.marked consensusMsg .quorumCommits := if_pos current
      rw [uponRule, same]
      exact .committed fires
  | justifiedDecided =>
      obtain ⟨-, rfl⟩ := classified
      exact .adopted fires
  | justifiedPrePrepare =>
      obtain ⟨-, -, rfl⟩ := classified
      have effect := Effect.prePrepared fires
      cases hashed : consensusMsg.msg.valueHash with
      | none => simpa [uponRule, hashed] using effect
      | some valueHash => simpa [uponRule, hashed] using effect
  | quorumPrepares =>
      obtain ⟨-, current, -⟩ := classified
      have round : consensusMsg.msg.round = s.round := current
      have effect := Effect.prepared fires
      cases hashed : consensusMsg.msg.valueHash with
      | none => simpa [uponRule, hashed, round] using effect
      | some valueHash => simpa [uponRule, hashed, round] using effect
  | fPlus1RoundChanges =>
      obtain ⟨-, -, -, enough⟩ := classified
      rw [d_received] at enough
      rw [uponRule, uponFPlus1, d_marked, if_neg (Int.not_lt.mpr enough)]
      cases smallest : smallestRound (s.marked consensusMsg .fPlus1RoundChanges).round
          justification none with
      | error error => exact .noted _ _ rfl fires.toAccepts
      | ok result =>
          cases result with
          | none => exact .noted _ _ rfl fires.toAccepts
          | some rmin =>
              rcases smallestRound_spec justification smallest with start | ⟨future, least⟩
              · cases start
              · simpa using Effect.jumped fires future least

theorem answerDecided_effect {s : QBFTConsensus} {consensusMsg : QBFTConsensusMsg}
    {firstCommit : QBFTMsg} {more : List QBFTMsg} (decided : s.qCommit = firstCommit :: more) :
    s.Effect (.receive consensusMsg)
      ((s.storeValues consensusMsg.values).answerDecided consensusMsg.msg firstCommit) := by
  unfold answerDecided allowDecidedResend
  dsimp only
  split
  · split
    · rename_i refused
      split at refused
      · cases refused
        exact .idle (.ok []) rfl consensusMsg.values s.decidedResends
      · cases refused
    · rename_i allowed
      split at allowed
      · cases allowed
      · cases allowed
        split
        · exact .idle (.ok []) rfl consensusMsg.values _
        · rename_i valueHash known
          exact .resent firstCommit more decided valueHash known _
  · exact .idle (.ok []) rfl consensusMsg.values s.decidedResends

/-- A call of `handleMessage` has one of the listed effects. -/
theorem handleMessage_effect (s : QBFTConsensus) (consensusMsg : QBFTConsensusMsg) :
    s.Effect (.receive consensusMsg) (s.handleMessage consensusMsg) := by
  unfold handleMessage
  split
  · exact .idle _ rfl [] s.decidedResends
  · rename_i limits
    dsimp only
    split
    · exact .idle (.ok []) rfl consensusMsg.values s.decidedResends
    · rename_i duty
      split
      · rename_i decided
        exact answerDecided_effect decided
      · rename_i undecided
        split
        · exact .idle _ rfl consensusMsg.values s.decidedResends
        · exact .idle (.ok []) rfl consensusMsg.values s.decidedResends
        · rename_i justified
          have accepts : s.Accepts consensusMsg :=
            ⟨limits, not_not.mp duty, undecided, justified⟩
          unfold react
          dsimp only
          split
          · exact .kept _ rfl accepts
          · rename_i rule justification result
            split
            · exact .kept (.ok []) rfl accepts
            · rename_i some
              split
              · exact .kept (.ok []) rfl accepts
              · rename_i fresh
                exact effect_of_fires ⟨accepts, classified_of_classify some result,
                  Bool.eq_false_of_not_eq_true fresh⟩

/-- Every event has one of the listed effects. -/
theorem step_effect (s : QBFTConsensus) (event : Event) : s.Effect event (s.step event) := by
  cases event with
  | receive consensusMsg => exact s.handleMessage_effect consensusMsg
  | timeout =>
      change s.Effect .timeout s.timeout
      unfold timeout
      split
      · exact .idle (.ok []) rfl [] s.decidedResends
      · rename_i undecided
        simpa using Effect.timedOut undecided

end QBFTConsensus

end DvSpec.Consensus
