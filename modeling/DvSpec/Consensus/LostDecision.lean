import DvSpec.Consensus.Decision
import DvSpec.Consensus.DutyIsolation
import DvSpec.Consensus.RoundScan

/-!
# Decisions lost to reordering

COMMITs are only counted when one of their round arrives.  An instance that
enters a round with a COMMIT quorum in its buffer, or that finds the missing
COMMIT in a justification, stays undecided.
-/

namespace DvSpec.Consensus

open DvSpec.Library

/-- COMMITs for one round and value from a quorum of distinct peers. -/
def CommitQuorum (d : Definition) (round : Nat) (valueHash : Option Bytes)
    (messages : List QBFTMsg) : Prop :=
  d.quorum ≤ (senders (votesFor .commit round valueHash messages)).card

namespace QBFTConsensus

/-- An undecided instance holds no COMMIT quorum for its round. -/
def NoLostDecision (s : QBFTConsensus) : Prop :=
  s.qCommit = [] → ∀ valueHash, ¬ CommitQuorum s.d s.round valueHash s.allMsg

instance (d : Definition) (round : Nat) (valueHash : Option Bytes) (messages : List QBFTMsg) :
    Decidable (CommitQuorum d round valueHash messages) :=
  inferInstanceAs (Decidable (_ ≤ _))

/-! ## The smallest round -/

/-- The smallest of a list of rounds is below all of them. -/
theorem smallestRound_le {current : Nat} (justification : List QBFTMsg) {rmin : Option Nat}
    {result : Nat} (found : smallestRound current justification rmin = .ok (some result)) :
    (∀ start ∈ rmin, result ≤ start) ∧ ∀ j ∈ justification, result ≤ j.round := by
  induction justification generalizing rmin with
  | nil =>
      cases found
      exact ⟨fun start same => Nat.le_of_eq (Option.some.inj same), fun j absent => by cases absent⟩
  | cons j rest ih =>
      unfold smallestRound at found
      split at found
      · cases found
      · split at found
        · cases found
        · obtain ⟨start, others⟩ := ih found
          have below : (∀ start ∈ rmin, result ≤ start) ∧ result ≤ j.round := by
            cases rmin with
            | none => exact ⟨fun _ absent => (by cases absent), start j.round rfl⟩
            | some smallest =>
                dsimp only at start
                split at start
                · rename_i smaller
                  have here := start j.round rfl
                  refine ⟨fun _ same => ?_, here⟩
                  cases same
                  exact Nat.le_of_lt (Nat.lt_of_le_of_lt here smaller)
                · rename_i notSmaller
                  have here := start smallest rfl
                  refine ⟨fun _ same => ?_, Nat.le_trans here (Nat.not_lt.mp notSmaller)⟩
                  cases same
                  exact here
          refine ⟨below.1, fun k member => ?_⟩
          rcases List.mem_cons.mp member with rfl | later
          · exact below.2
          · exact others k later

/-- The smallest round among some messages. -/
structure LeastRound (r : Nat) (messages : List QBFTMsg) : Prop where
  reached : ∃ j ∈ messages, j.round = r
  least : ∀ j ∈ messages, r ≤ j.round

theorem smallestRound_eq_iff {current r : Nat} {messages : List QBFTMsg}
    (future : ∀ j ∈ messages, j.type = .roundChange ∧ current < j.round) :
    smallestRound current messages none = .ok (some r) ↔ LeastRound r messages := by
  constructor
  · intro smallest
    rcases smallestRound_spec messages smallest with start | ⟨-, reached⟩
    · cases start
    · exact ⟨reached, (smallestRound_le messages smallest).2⟩
  · rintro ⟨⟨j, member, rfl⟩, least⟩
    obtain ⟨found, smallest⟩ := @smallestRound_returns current messages none future
      (Or.inl (List.ne_nil_of_mem member))
    rcases smallestRound_spec messages smallest with start | ⟨-, k, inside, rfl⟩
    · cases start
    · have below := (smallestRound_le messages smallest).2 j member
      rw [smallest, Nat.le_antisymm below (least k inside)]

variable [Crypto] {s : QBFTConsensus} {consensusMsg : QBFTConsensusMsg}

/-! ## Entering a round -/

/-- The highest ROUND-CHANGEs beyond the current round, one for each peer, as far as the buffer
with the message is scanned for F+1 peers. -/
def futureChanges (s : QBFTConsensus) (consensusMsg : QBFTConsensusMsg) : List QBFTMsg :=
  (highestBySource s.round (s.d.faulty + 1) (s.received consensusMsg).allMsg Dict.empty).values

theorem mem_futureChanges {j : QBFTMsg} (member : j ∈ s.futureChanges consensusMsg) :
    j.type = .roundChange ∧ s.round < j.round := (mem_values_highestBySource member).2

/-- The ways in which a message moves an instance to a later round: a PRE-PREPARE for that round,
or a ROUND-CHANGE with which F+1 peers ask for later rounds, to the smallest of theirs. -/
inductive Moves (s : QBFTConsensus) (consensusMsg : QBFTConsensusMsg) : Nat → Prop where
  | proposed (accepts : s.Accepts consensusMsg) (type : consensusMsg.msg.type = .prePrepare)
      (fresh : s.dedupRules.contains (.justifiedPrePrepare, s.round) = false)
      (later : s.round < consensusMsg.msg.round) : Moves s consensusMsg consensusMsg.msg.round
  | jumped {r : Nat} (accepts : s.Accepts consensusMsg)
      (type : consensusMsg.msg.type = .roundChange) (future : s.round < consensusMsg.msg.round)
      (fresh : s.dedupRules.contains (.fPlus1RoundChanges, s.round) = false)
      (enough : s.d.faulty + 1 ≤ ((s.futureChanges consensusMsg).length : Int))
      (least : LeastRound r (s.futureChanges consensusMsg)) : Moves s consensusMsg r

theorem Moves.accepts {r : Nat} (moves : s.Moves consensusMsg r) : s.Accepts consensusMsg := by
  cases moves with
  | proposed accepts => exact accepts
  | jumped accepts => exact accepts

theorem Moves.later {r : Nat} (moves : s.Moves consensusMsg r) : s.round < r := by
  cases moves with
  | proposed _ _ _ later => exact later
  | jumped _ _ _ _ _ least =>
      obtain ⟨j, member, rfl⟩ := least.reached
      exact (mem_futureChanges member).2

/-- A PRE-PREPARE for a later round is classified as a proposal. -/
theorem classify_later (type : consensusMsg.msg.type = .prePrepare)
    (later : s.round < consensusMsg.msg.round) :
    (s.received consensusMsg).classify consensusMsg = .ok (.justifiedPrePrepare, []) := by
  simp [classify, type, Nat.lt_asymm later]

/-- The F+1 rule finds the future ROUND-CHANGEs. -/
theorem classify_futureChanges (type : consensusMsg.msg.type = .roundChange)
    (future : s.round < consensusMsg.msg.round)
    (enough : s.d.faulty + 1 ≤ ((s.futureChanges consensusMsg).length : Int)) :
    (s.received consensusMsg).classify consensusMsg =
      .ok (.fPlus1RoundChanges, s.futureChanges consensusMsg) := by
  rw [futureChanges, Dict.length_values] at enough
  exact classify_highestBySource type future enough

/-- The instance arrives in the round, undecided. -/
theorem Moves.arrives {r : Nat} (moves : s.Moves consensusMsg r) :
    (s.handleMessage consensusMsg).2.round = r ∧
      (s.handleMessage consensusMsg).2.qCommit = [] := by
  have undecided := moves.accepts.undecided
  cases moves with
  | proposed accepts type fresh later =>
      rw [handleMessage_of_classify accepts (classify_later type later) (by decide) fresh]
      constructor
      · cases hashed : consensusMsg.msg.valueHash <;> simp [uponRule, hashed]
      · cases hashed : consensusMsg.msg.valueHash <;> simp [uponRule, hashed, undecided]
  | jumped accepts type future fresh enough least =>
      have smallest := (smallestRound_eq_iff fun j member => mem_futureChanges member).mpr least
      rw [handleMessage_of_classify accepts (classify_futureChanges type future enough) (by decide)
          fresh, uponRule, uponFPlus1, d_marked, if_neg (Int.not_lt.mpr enough), round_marked,
        smallest]
      constructor
      · exact round_changeRound _ _
      · exact (qCommit_changeRound _ _).trans undecided

/-- An undecided instance changes its round on a message in no other way. -/
theorem moves_of_round_ne (nodes : 0 < s.d.nodes)
    (undecided : (s.handleMessage consensusMsg).2.qCommit = [])
    (moved : (s.handleMessage consensusMsg).2.round ≠ s.round) :
    s.Moves consensusMsg (s.handleMessage consensusMsg).2.round := by
  have before := (s.handleMessage_effect consensusMsg).undecided undecided
  rcases handleMessage_records nodes before with
    ⟨same, -⟩ | ⟨rule, justification, fires, classified, result⟩
  · exact absurd same moved
  · have reason := fires.classified
    rw [result] at moved undecided ⊢
    cases rule with
    | nothing => exact reason.elim
    | roundTimeout => exact reason.elim
    | unjustQuorumRoundChanges => exact absurd rfl moved
    | quorumRoundChanges => exact absurd rfl moved
    | quorumPrepares =>
        cases hashed : consensusMsg.msg.valueHash <;> simp [uponRule, hashed] at moved
    | quorumCommits => exact absurd undecided (fires.ne_nil nodes (Or.inl rfl))
    | justifiedDecided => exact absurd undecided (fires.ne_nil nodes (Or.inr rfl))
    | justifiedPrePrepare =>
        have round : ((s.marked consensusMsg .justifiedPrePrepare).uponRule .justifiedPrePrepare
            consensusMsg.msg justification).2.round = consensusMsg.msg.round := by
          cases hashed : consensusMsg.msg.valueHash <;> simp [uponRule, hashed]
        rw [round] at moved ⊢
        obtain ⟨type, notPast, -⟩ := reason
        exact .proposed fires.toAccepts type fires.fresh
          (Nat.lt_of_le_of_ne notPast (Ne.symm moved))
    | fPlus1RoundChanges =>
        obtain ⟨type, future, chosen, enough⟩ := reason
        have found : justification = s.futureChanges consensusMsg := chosen
        subst found
        rw [d_received] at enough
        rw [uponRule, uponFPlus1, d_marked, if_neg (Int.not_lt.mpr enough), round_marked]
          at moved ⊢
        cases smallest : smallestRound s.round (s.futureChanges consensusMsg) none with
        | error error =>
            rw [smallest] at moved
            exact absurd rfl moved
        | ok found =>
            cases found with
            | none =>
                rw [smallest] at moved
                exact absurd rfl moved
            | some rmin =>
                have round : ((s.marked consensusMsg .fPlus1RoundChanges).changeRound
                  rmin).round = rmin := round_changeRound _ _
                dsimp only
                rw [round]
                exact .jumped fires.toAccepts type future fires.fresh enough
                  ((smallestRound_eq_iff fun j member => mem_futureChanges member).mp smallest)

/-! ## Steps that lose a decision -/

/-- The events that leave an undecided instance with a COMMIT quorum for its round. -/
inductive Loses (s : QBFTConsensus) : Event → Prop where
  /-- A message moves the instance to a round with a COMMIT quorum in the buffer. -/
  | entered {consensusMsg : QBFTConsensusMsg} {r : Nat} (moves : s.Moves consensusMsg r)
      (valueHash : Option Bytes)
      (quorum : CommitQuorum s.d r valueHash (s.received consensusMsg).allMsg) :
      Loses s (.receive consensusMsg)
  /-- A timeout moves the instance to a round with a COMMIT quorum in the buffer. -/
  | timedOut (undecided : s.qCommit = []) (valueHash : Option Bytes)
      (quorum : CommitQuorum s.d (s.round + 1) valueHash s.allMsg) : Loses s .timeout
  /-- A message that neither moves nor decides completes a COMMIT quorum of the round. -/
  | attached {consensusMsg : QBFTConsensusMsg} (accepts : s.Accepts consensusMsg)
      (stays : ∀ r, ¬ s.Moves consensusMsg r) (type : consensusMsg.msg.type ≠ .decided)
      (uncounted : consensusMsg.msg.type = .commit → consensusMsg.msg.round = s.round →
        (votesFor .commit s.round consensusMsg.msg.valueHash
          (s.received consensusMsg).allMsg).length < s.d.quorum)
      (valueHash : Option Bytes)
      (quorum : CommitQuorum s.d s.round valueHash (s.received consensusMsg).allMsg) :
      Loses s (.receive consensusMsg)

/-- A COMMIT of the round that completes a tally decides. -/
theorem decides_of_tally (nodes : 0 < s.d.nodes) (fresh : s.DecidersFresh)
    (accepts : s.Accepts consensusMsg) (type : consensusMsg.msg.type = .commit)
    (current : consensusMsg.msg.round = s.round)
    (quorum : s.d.quorum ≤ (votesFor .commit s.round consensusMsg.msg.valueHash
      (s.received consensusMsg).allMsg).length) :
    (s.handleMessage consensusMsg).2.qCommit ≠ [] := by
  have positive := Definition.quorum_pos nodes
  have classified : (s.received consensusMsg).classify consensusMsg =
      .ok (.quorumCommits, votesFor .commit s.round consensusMsg.msg.valueHash
        (s.received consensusMsg).allMsg) := by
    unfold classify
    simp only [type, current, round_received, ne_eq, not_true, if_false, d_received]
    exact if_pos quorum
  rw [handleMessage_of_classify accepts classified (by decide)
    (fresh accepts.undecided _ (Or.inl rfl))]
  exact List.ne_nil_of_length_pos (Nat.lt_of_lt_of_le positive quorum)

/-- A justified DECIDED message decides. -/
theorem decides_of_decided (nodes : 0 < s.d.nodes) (fresh : s.DecidersFresh)
    (accepts : s.Accepts consensusMsg) (type : consensusMsg.msg.type = .decided) :
    (s.handleMessage consensusMsg).2.qCommit ≠ [] := by
  have justified := accepts.justified
  rw [isJustified_decided type, Except.ok.injEq, isJustifiedDecided_iff] at justified
  rw [qCommit_of_decided fresh accepts type]
  rintro empty
  rw [empty] at justified
  exact absurd justified.2 (Nat.not_le.mpr (Definition.quorum_pos nodes))

/-- A refused message changes neither the round nor the buffer. -/
theorem unchanged_of_refused (nodes : 0 < s.d.nodes) (undecided : s.qCommit = [])
    (refused : ¬ s.Accepts consensusMsg) :
    (s.handleMessage consensusMsg).2.round = s.round ∧
      (s.handleMessage consensusMsg).2.allMsg = s.allMsg := by
  constructor
  · rcases handleMessage_records nodes undecided with ⟨round, -⟩ | ⟨_, _, fires, -⟩
    · exact round
    · exact absurd fires.toAccepts refused
  · rcases (s.handleMessage_effect consensusMsg).buffer with same | ⟨_, received, accepts, -⟩
    · exact allMsg_congr same
    · cases received
      exact absurd accepts refused

theorem allMsg_handleMessage (accepts : s.Accepts consensusMsg) :
    (s.handleMessage consensusMsg).2.allMsg = (s.received consensusMsg).allMsg :=
  allMsg_congr (buffer_handleMessage accepts)

/-- Every other step keeps an instance from losing a decision. -/
theorem NoLostDecision.step (nodes : 0 < s.d.nodes) (fresh : s.DecidersFresh)
    (holds : s.NoLostDecision) (event : Event) (keeps : ¬ s.Loses event) :
    (s.step event).2.NoLostDecision := by
  intro undecided valueHash quorum
  have before := (s.step_effect event).undecided undecided
  rw [(s.step_sameConfig event).d] at quorum
  apply keeps
  cases event with
  | timeout =>
      rw [step_timeout before, round_changeRound, allMsg_congr (buffer_changeRound s _)] at quorum
      exact .timedOut before valueHash quorum
  | receive consensusMsg =>
      change (s.handleMessage consensusMsg).2.qCommit = [] at undecided
      change CommitQuorum s.d (s.handleMessage consensusMsg).2.round valueHash
        (s.handleMessage consensusMsg).2.allMsg at quorum
      by_cases accepts : s.Accepts consensusMsg
      · rw [allMsg_handleMessage accepts] at quorum
        by_cases stays : (s.handleMessage consensusMsg).2.round = s.round
        · rw [stays] at quorum
          refine .attached accepts ?_ ?_ ?_ valueHash quorum
          · intro r moves
            have later := moves.later
            rw [← moves.arrives.1, stays] at later
            exact Nat.lt_irrefl _ later
          · intro type
            exact decides_of_decided nodes fresh accepts type undecided
          · intro type current
            by_contra enough
            exact decides_of_tally nodes fresh accepts type current (Nat.not_lt.mp enough)
              undecided
        · exact .entered (moves_of_round_ne nodes undecided stays) valueHash quorum
      · obtain ⟨round, allMsg⟩ := unchanged_of_refused nodes before accepts
        rw [round, allMsg] at quorum
        exact absurd quorum (holds before valueHash)

/-- Each of these steps loses a decision. -/
theorem Loses.loses (nodes : 0 < s.d.nodes) {event : Event} (loses : s.Loses event) :
    ¬ (s.step event).2.NoLostDecision := by
  have definition := (s.step_sameConfig event).d
  intro holds
  unfold NoLostDecision at holds
  rw [definition] at holds
  cases loses with
  | @timedOut undecided valueHash quorum =>
      rw [step_timeout undecided, round_changeRound, allMsg_congr (buffer_changeRound s _),
        qCommit_changeRound] at holds
      exact holds undecided valueHash quorum
  | @entered consensusMsg r moves valueHash quorum =>
      obtain ⟨round, undecided⟩ := moves.arrives
      change (s.handleMessage consensusMsg).2.qCommit = [] → ∀ valueHash,
        ¬ CommitQuorum s.d (s.handleMessage consensusMsg).2.round valueHash
          (s.handleMessage consensusMsg).2.allMsg at holds
      rw [round, allMsg_handleMessage moves.accepts] at holds
      exact holds undecided valueHash quorum
  | @attached consensusMsg accepts stays type uncounted valueHash quorum =>
      change (s.handleMessage consensusMsg).2.qCommit = [] → ∀ valueHash,
        ¬ CommitQuorum s.d (s.handleMessage consensusMsg).2.round valueHash
          (s.handleMessage consensusMsg).2.allMsg at holds
      have undecided : (s.handleMessage consensusMsg).2.qCommit = [] := by
        by_contra decides
        cases (writes_of_decides accepts.undecided decides).2.2 with
        | adopts decided => exact type decided
        | commits commit current tally enough =>
            rw [tally] at enough
            exact Nat.not_le.mpr (uncounted commit current) enough
      have round : (s.handleMessage consensusMsg).2.round = s.round := by
        by_contra moved
        exact stays _ (moves_of_round_ne nodes undecided moved)
      rw [round, allMsg_handleMessage accepts] at holds
      exact holds undecided valueHash quorum

/-! ## Runs -/

theorem noLostDecision_new {d : Definition} (nodes : 0 < d.nodes) (t : Transport) (duty : Duty)
    (peer : Nat) (proposalValue : Bytes) : (new d t duty peer proposalValue).NoLostDecision := by
  intro _ valueHash quorum
  have empty : (new d t duty peer proposalValue).allMsg = [] := rfl
  unfold CommitQuorum at quorum
  rw [empty] at quorum
  exact absurd quorum (Nat.not_le.mpr (Definition.quorum_pos nodes))

/-- No state of a run has lost a decision exactly when there are nodes and no step loses one. -/
theorem run_noLostDecision_iff (d : Definition) (t : Transport) (duty : Duty) (peer : Nat)
    (proposalValue : Bytes) (events : List Event) :
    Machine.Always step NoLostDecision (new d t duty peer proposalValue) events ↔
      0 < d.nodes ∧
        Machine.Along step (fun s event => ¬ s.Loses event) (new d t duty peer proposalValue)
          events := by
  constructor
  · intro always
    have nodes : 0 < d.nodes := by
      by_contra nobody
      have zero : d.quorum = 0 := by
        unfold Definition.quorum
        omega
      apply always.head rfl none
      exact zero.trans_le (Nat.zero_le _)
    refine ⟨nodes, ?_⟩
    intro point member loses
    have config : 0 < point.1.d.nodes :=
      Machine.trace_invariant (C := fun _ _ => True)
        (I := fun s : QBFTConsensus => 0 < s.d.nodes)
        (fun state event holds _ => (state.step_sameConfig event).d ▸ holds) nodes
        (fun _ _ => trivial) point member
    exact loses.loses config (always.along point member).2
  · rintro ⟨nodes, along⟩
    have strong := Machine.always_invariant
      (I := fun s : QBFTConsensus => (0 < s.d.nodes ∧ s.DecidersFresh) ∧ s.NoLostDecision)
      (fun state event holds keeps => ⟨⟨(state.step_sameConfig event).d ▸ holds.1.1,
        holds.1.2.step holds.1.1 event⟩, holds.2.step holds.1.1 holds.1.2 event keeps⟩)
      ⟨⟨nodes, fun _ _ _ => rfl⟩, noLostDecision_new nodes t duty peer proposalValue⟩ along
    exact strong.imp fun _ holds => holds.2

open FourPeers in
/-- COMMITs of three peers for the second round, and the PRE-PREPARE that moves there. -/
def earlyCommits : List Event :=
  [receive (vote .commit 0 2 9), receive (vote .commit 1 2 9), receive (vote .commit 2 2 9),
    receive (vote .prePrepare 1 2 9) [changeTo 0 2, changeTo 1 2, changeTo 2 2]]

omit [Crypto] in
/-- COMMITs that arrive before the PRE-PREPARE of their round do not decide. -/
theorem earlyCommits_lost :
    letI := constantCrypto
    ¬ Machine.Always step NoLostDecision (FourPeers.fresh 3) earlyCommits := by
  rintro ⟨-, -, -, -, holds⟩
  exact holds (by decide +kernel) (some (FourPeers.valueHash 9)) (by decide +kernel)

end QBFTConsensus

end DvSpec.Consensus
