import DvSpec.Consensus.Justification
import DvSpec.Library.Machine

/-!
# Certificates and tallies without a quorum of senders

The justification checks and the tallies over the buffer count messages.  A
certificate or a tally stands for a quorum of peers except when it reaches the
quorum by repeating the votes of the same senders.
-/

namespace DvSpec.Consensus

open DvSpec.Library

/-- A quorum of messages that is not a quorum of senders. -/
def QuorumByRepetition (quorum : Nat) (messages : List QBFTMsg) : Prop :=
  (senders messages).card < quorum ∧ quorum ≤ messages.length

theorem card_senders_le (messages : List QBFTMsg) :
    (senders messages).card ≤ messages.length := card_voters_le _ _

/-- Without repetition a counted quorum is a quorum of senders. -/
theorem quorum_of_not_repetition {quorum : Nat} {messages : List QBFTMsg}
    (distinct : ¬ QuorumByRepetition quorum messages) (counted : quorum ≤ messages.length) :
    quorum ≤ (senders messages).card :=
  Nat.not_lt.mp fun few => distinct ⟨few, counted⟩

theorem senders_mono {messages more : List QBFTMsg} (included : messages ⊆ more) :
    senders messages ⊆ senders more := voters_mono _ included

namespace QBFTConsensus

/-! ## Certificates of received messages -/

/-- An accepted message carries votes of a quorum of distinct senders wherever its
type demands a certificate. -/
structure CertifiedBySenders (s : QBFTConsensus) (consensusMsg : QBFTConsensusMsg) : Prop where
  decided : consensusMsg.msg.type = .decided → s.isJustified consensusMsg = .ok true →
    s.d.quorum ≤ (senders (votesFor .commit consensusMsg.msg.round consensusMsg.msg.valueHash
      consensusMsg.justification)).card
  roundChange : consensusMsg.msg.type = .roundChange → s.isJustified consensusMsg = .ok true →
    0 < consensusMsg.msg.preparedRound →
    s.d.quorum ≤ (senders (votesFor .prepare consensusMsg.msg.preparedRound
      (some consensusMsg.msg.preparedValueHash) consensusMsg.justification)).card
  prePrepare : consensusMsg.msg.type = .prePrepare → s.isJustified consensusMsg = .ok true →
    1 < consensusMsg.msg.round →
    s.d.quorum ≤
        (senders (roundChangesFor consensusMsg.msg.round consensusMsg.justification)).card ∧
      (AllNonePrepared consensusMsg.msg.round consensusMsg.justification ∨
        ∃ pr, s.d.quorum ≤ (senders (votesFor .prepare pr consensusMsg.msg.valueHash
          consensusMsg.justification)).card)

/-- A PRE-PREPARE of a later round that passes every test of its leader, of its counts
and of its value, but lacks a quorum of senders behind one of the counts. -/
def PaddedPrePrepare (s : QBFTConsensus) (consensusMsg : QBFTConsensusMsg) : Prop :=
  1 < consensusMsg.msg.round ∧ 0 < s.d.nodes ∧
    s.d.leader s.duty consensusMsg.msg.round = consensusMsg.msg.peerIdx ∧
    s.d.quorum ≤ (roundChangesFor consensusMsg.msg.round consensusMsg.justification).length ∧
    (AllNonePrepared consensusMsg.msg.round consensusMsg.justification ∧
        (senders (roundChangesFor consensusMsg.msg.round consensusMsg.justification)).card <
          s.d.quorum ∨
      ¬ AllNonePrepared consensusMsg.msg.round consensusMsg.justification ∧
        ∃ pr pv, SelectsPrepared s.d.quorum consensusMsg.msg.round consensusMsg.justification
            pr pv ∧ consensusMsg.msg.valueHash = some pv ∧
          ((senders (roundChangesFor consensusMsg.msg.round consensusMsg.justification)).card <
              s.d.quorum ∨
            ∀ other, (senders (votesFor .prepare other (some pv)
              consensusMsg.justification)).card < s.d.quorum))

/-- A message whose certificate is padded with repeated votes. -/
def PaddedCertificate (s : QBFTConsensus) (consensusMsg : QBFTConsensusMsg) : Prop :=
  match consensusMsg.msg.type with
  | .decided =>
      QuorumByRepetition s.d.quorum (votesFor .commit consensusMsg.msg.round
        consensusMsg.msg.valueHash consensusMsg.justification)
  | .roundChange =>
      0 < consensusMsg.msg.preparedRound ∧
        QuorumByRepetition s.d.quorum (votesFor .prepare consensusMsg.msg.preparedRound
          (some consensusMsg.msg.preparedValueHash) consensusMsg.justification)
  | .prePrepare => s.PaddedPrePrepare consensusMsg
  | .prepare => False
  | .commit => False

variable {s : QBFTConsensus} {consensusMsg : QBFTConsensusMsg}

theorem certified_decided (type : consensusMsg.msg.type = .decided) :
    s.CertifiedBySenders consensusMsg ↔ ¬ s.PaddedCertificate consensusMsg := by
  have accepted : s.isJustified consensusMsg = .ok true ↔
      s.d.quorum ≤ (votesFor .commit consensusMsg.msg.round consensusMsg.msg.valueHash
        consensusMsg.justification).length := by
    rw [isJustified_decided type, Except.ok.injEq, isJustifiedDecided_iff]
    exact and_iff_right type
  rw [PaddedCertificate, type]
  dsimp only
  constructor
  · rintro certified ⟨few, counted⟩
    exact absurd (certified.decided type (accepted.mpr counted)) (Nat.not_le.mpr few)
  · intro distinct
    constructor
    · exact fun _ justified => quorum_of_not_repetition distinct (accepted.mp justified)
    · intro other
      cases type.symm.trans other
    · intro other
      cases type.symm.trans other

theorem certified_roundChange (type : consensusMsg.msg.type = .roundChange) :
    s.CertifiedBySenders consensusMsg ↔ ¬ s.PaddedCertificate consensusMsg := by
  have accepted : 0 < consensusMsg.msg.preparedRound →
      (s.isJustified consensusMsg = .ok true ↔
        s.d.quorum ≤ (votesFor .prepare consensusMsg.msg.preparedRound
          (some consensusMsg.msg.preparedValueHash) consensusMsg.justification).length) := by
    intro positive
    rw [isJustified_roundChange type, Except.ok.injEq, isJustifiedRoundChange_iff,
      QBFTMsg.nonePrepared_iff]
    constructor
    · rintro ⟨-, ⟨-, none, -⟩ | counted⟩
      · exact absurd none (Nat.ne_of_gt positive)
      · exact counted
    · exact fun counted => ⟨type, Or.inr counted⟩
  rw [PaddedCertificate, type]
  dsimp only
  constructor
  · rintro certified ⟨positive, few, counted⟩
    exact absurd (certified.roundChange type ((accepted positive).mpr counted) positive)
      (Nat.not_le.mpr few)
  · intro padded
    constructor
    · intro other
      cases type.symm.trans other
    · intro _ justified positive
      exact quorum_of_not_repetition (fun repeated => padded ⟨positive, repeated⟩)
        ((accepted positive).mp justified)
    · intro other
      cases type.symm.trans other

theorem certified_prePrepare (type : consensusMsg.msg.type = .prePrepare) :
    s.CertifiedBySenders consensusMsg ↔ ¬ s.PaddedCertificate consensusMsg := by
  have accepted := @isJustifiedPrePrepare_iff s consensusMsg
  rw [← isJustified_prePrepare type] at accepted
  rw [PaddedCertificate, type]
  dsimp only
  constructor
  · rintro certified ⟨later, nodes, leader, enough, padded⟩
    rcases padded with ⟨none, few⟩ | ⟨some, pr, pv, selects, chosen, missing⟩
    · have justified := accepted.mpr ⟨type, nodes, leader, Or.inr ⟨enough, Or.inl none⟩⟩
      exact absurd (certified.prePrepare type justified later).1 (Nat.not_le.mpr few)
    · have justified := accepted.mpr
        ⟨type, nodes, leader, Or.inr ⟨enough, Or.inr ⟨pr, pv, selects, chosen⟩⟩⟩
      obtain ⟨changes, none | ⟨other, prepares⟩⟩ := certified.prePrepare type justified later
      · exact some none
      · rw [chosen] at prepares
        rcases missing with few | few
        · exact absurd changes (Nat.not_le.mpr few)
        · exact absurd prepares (Nat.not_le.mpr (few other))
  · intro padded
    constructor
    · intro other
      cases type.symm.trans other
    · intro other
      cases type.symm.trans other
    · intro _ justified later
      obtain ⟨-, nodes, leader, first | ⟨enough, value⟩⟩ := accepted.mp justified
      · exact absurd first (Nat.ne_of_gt later)
      · by_contra uncertified
        refine padded ⟨later, nodes, leader, enough, ?_⟩
        rw [not_and_or, not_or, Nat.not_le] at uncertified
        by_cases none : AllNonePrepared consensusMsg.msg.round consensusMsg.justification
        · exact Or.inl ⟨none, uncertified.resolve_right fun prepared => prepared.1 none⟩
        · obtain ⟨pr, pv, selects, chosen⟩ := value.resolve_left none
          refine Or.inr ⟨none, pr, pv, selects, chosen, uncertified.imp_right ?_⟩
          rintro ⟨-, missing⟩ other
          rw [chosen] at missing
          exact Nat.not_le.mp fun prepares => missing ⟨other, prepares⟩

/-- PREPAREs and COMMITs need no certificate. -/
theorem certifiedBySenders_of_vote
    (type : consensusMsg.msg.type = .prepare ∨ consensusMsg.msg.type = .commit) :
    s.CertifiedBySenders consensusMsg := by
  constructor
  · intro other
    simp [other] at type
  · intro other
    simp [other] at type
  · intro other
    simp [other] at type

/-- An accepted message is certified by distinct senders exactly when it is not padded. -/
theorem certifiedBySenders_iff (s : QBFTConsensus) (consensusMsg : QBFTConsensusMsg) :
    s.CertifiedBySenders consensusMsg ↔ ¬ s.PaddedCertificate consensusMsg := by
  cases type : consensusMsg.msg.type with
  | decided => exact certified_decided type
  | roundChange => exact certified_roundChange type
  | prePrepare => exact certified_prePrepare type
  | prepare => simp [PaddedCertificate, type, certifiedBySenders_of_vote]
  | commit => simp [PaddedCertificate, type, certifiedBySenders_of_vote]

/-- A DECIDED message of peer 3 that repeats its own COMMIT three times. -/
def forgedDecision (byte : UInt8) : QBFTConsensusMsg where
  msg := FourPeers.vote .decided 3 1 byte
  justification := List.replicate 3 (FourPeers.vote .commit 3 1 byte)

/-- Three copies of one COMMIT pass for a quorum of three peers. -/
theorem forgedDecision_not_certified :
    (∀ j ∈ votes (forgedDecision 9), j.peerIdx < FourPeers.definition.nodes) ∧
      ¬ (FourPeers.fresh 0).CertifiedBySenders (forgedDecision 9) := by
  refine ⟨by decide +kernel, fun certified => ?_⟩
  have few := certified.decided rfl (by decide +kernel)
  exact absurd few (by decide +kernel)

/-! ## Tallies over the buffer -/

/-- A tally that triggers a rule counts the votes of a quorum of distinct senders. -/
structure TalliesCountPeers (s : QBFTConsensus) (consensusMsg : QBFTConsensusMsg) : Prop where
  prepares : ∀ justification, s.classify consensusMsg = .ok (.quorumPrepares, justification) →
    s.d.quorum ≤ (senders (votesFor .prepare consensusMsg.msg.round consensusMsg.msg.valueHash
      s.allMsg)).card
  commits : ∀ justification, s.classify consensusMsg = .ok (.quorumCommits, justification) →
    s.d.quorum ≤ (senders (votesFor .commit consensusMsg.msg.round consensusMsg.msg.valueHash
      s.allMsg)).card
  roundChanges : ∀ justification,
    s.classify consensusMsg = .ok (.quorumRoundChanges, justification) →
    s.d.quorum ≤ (senders (roundChangesFor consensusMsg.msg.round justification)).card

/-- A message for the current round whose tally reaches the quorum by repeated votes. -/
def CountsRepeatedVotes (s : QBFTConsensus) (consensusMsg : QBFTConsensusMsg) : Prop :=
  consensusMsg.msg.round = s.round ∧
    match consensusMsg.msg.type with
    | .prepare =>
        QuorumByRepetition s.d.quorum
          (votesFor .prepare s.round consensusMsg.msg.valueHash s.allMsg)
    | .commit =>
        QuorumByRepetition s.d.quorum (votesFor .commit s.round consensusMsg.msg.valueHash s.allMsg)
    | .roundChange =>
        0 < s.d.nodes ∧ s.d.leader s.duty s.round = s.peer ∧
          QuorumByRepetition s.d.quorum (nullChangesFor s.round s.allMsg)
    | .prePrepare => False
    | .decided => False

theorem classify_vote (type : MsgType) (rule : UponRule)
    (votes : type = .prepare ∧ rule = .quorumPrepares ∨ type = .commit ∧ rule = .quorumCommits)
    (typed : consensusMsg.msg.type = type) (current : consensusMsg.msg.round = s.round)
    (counted : s.d.quorum ≤
      (votesFor type s.round consensusMsg.msg.valueHash s.allMsg).length) :
    s.classify consensusMsg =
      .ok (rule, votesFor type s.round consensusMsg.msg.valueHash s.allMsg) := by
  rcases votes with ⟨rfl, rfl⟩ | ⟨rfl, rfl⟩
  · simp [classify, typed, current, counted]
  · simp [classify, typed, current, counted]

/-- The leader of the current round reacts to a quorum of null-prepared messages. -/
theorem classify_nullChanges (type : consensusMsg.msg.type = .roundChange)
    (current : consensusMsg.msg.round = s.round) (nodes : 0 < s.d.nodes)
    (leader : s.d.leader s.duty s.round = s.peer)
    (counted : s.d.quorum ≤ (nullChangesFor s.round s.allMsg).length) :
    s.classify consensusMsg = .ok (.quorumRoundChanges, nullChangesFor s.round s.allMsg) := by
  have all : s.d.quorum ≤ (roundChangesFor s.round s.allMsg).length :=
    Nat.le_trans counted (List.length_filter_le _ _)
  have justified : s.justifiedQrc s.round = some (nullChangesFor s.round s.allMsg) :=
    if_pos counted
  simp [classify, classifyRoundChange, type, current, justified, Nat.not_lt.mpr all,
    Definition.isLeader_eq_ok nodes, leader]

theorem roundChangesFor_append (round : Nat) (first second : List QBFTMsg) :
    roundChangesFor round (first ++ second) =
      roundChangesFor round first ++ roundChangesFor round second := List.filter_append _ _

/-- The justified quorum of the leader has distinct senders unless it is a
null-prepared quorum reached by repetition. -/
theorem quorum_of_justifiedQrc {round : Nat} {justified : List QBFTMsg}
    (found : s.justifiedQrc round = some justified)
    (distinct : ¬ QuorumByRepetition s.d.quorum (nullChangesFor round s.allMsg)) :
    s.d.quorum ≤ (senders (roundChangesFor round justified)).card := by
  rcases justifiedQrc_cases found with ⟨rfl, counted⟩ | ⟨-, pr, pv, changes, prepares, rfl, spec⟩
  · rw [roundChangesFor_nullChangesFor]
    exact quorum_of_not_repetition distinct counted
  · have kept : roundChangesFor round changes = changes :=
      roundChangesFor_eq_self fun rc member =>
        (mem_roundChangesFor.mp (spec.mem_changes rc member).1).2
    have behind : (senders changes).card = changes.length :=
      card_voters_of_nodup _ spec.changes_distinct
    rw [roundChangesFor_append, kept]
    calc s.d.quorum ≤ changes.length := spec.changes_quorum
      _ = (senders changes).card := behind.symm
      _ ≤ _ := Finset.card_le_card (senders_mono (List.subset_append_left _ _))

/-- The votes of a justified quorum are in the flattened buffer. -/
theorem mem_of_mem_justifiedQrc {round : Nat} {justified : List QBFTMsg}
    (found : s.justifiedQrc round = some justified) {j : QBFTMsg} (member : j ∈ justified) :
    j ∈ s.allMsg := by
  rcases justifiedQrc_cases found with ⟨rfl, -⟩ | ⟨-, pr, pv, changes, prepares, rfl, spec⟩
  · exact (mem_nullChangesFor.mp member).1
  · rcases List.mem_append.mp member with change | prepare
    · exact (mem_roundChangesFor.mp (spec.mem_changes j change).1).1
    · exact (mem_votesFor.mp (spec.mem_prepares j prepare)).1

theorem round_of_mem_justifiedQrc {round : Nat} {justified : List QBFTMsg}
    (found : s.justifiedQrc round = some justified) {j : QBFTMsg} (member : j ∈ justified)
    (type : j.type = .roundChange) : j.round = round := by
  rcases justifiedQrc_cases found with ⟨rfl, -⟩ | ⟨-, pr, pv, changes, prepares, rfl, spec⟩
  · exact (mem_nullChangesFor.mp member).2.2.1
  · rcases List.mem_append.mp member with change | prepare
    · exact (mem_roundChangesFor.mp (spec.mem_changes j change).1).2.2
    · cases (mem_votesFor.mp (spec.mem_prepares j prepare)).2.1.symm.trans type

/-- The PREPAREs of a justified quorum come from a quorum of senders. -/
theorem quorum_of_mem_justifiedQrc {round : Nat} {justified : List QBFTMsg}
    (found : s.justifiedQrc round = some justified) {j : QBFTMsg} (member : j ∈ justified)
    (type : j.type = .prepare) :
    s.d.quorum ≤ (senders (votesFor .prepare j.round j.valueHash justified)).card := by
  rcases justifiedQrc_cases found with ⟨rfl, -⟩ | ⟨-, pr, pv, changes, prepares, rfl, spec⟩
  · cases (mem_nullChangesFor.mp member).2.1.symm.trans type
  · rcases List.mem_append.mp member with change | prepare
    · cases (mem_roundChangesFor.mp (spec.mem_changes j change).1).2.1.symm.trans type
    · obtain ⟨-, -, rfl, hash⟩ := mem_votesFor.mp (spec.mem_prepares j prepare)
      have included : prepares ⊆
          votesFor .prepare j.round j.valueHash (changes ++ prepares) := by
        intro vote inside
        have voted := (mem_votesFor.mp (spec.mem_prepares vote inside)).2
        rw [← hash] at voted
        exact mem_votesFor.mpr ⟨List.mem_append_right _ inside, voted⟩
      have behind : (senders prepares).card = prepares.length :=
        card_voters_of_nodup _ spec.prepares_distinct
      calc s.d.quorum ≤ prepares.length := spec.prepares_quorum
        _ = (senders prepares).card := behind.symm
        _ ≤ _ := Finset.card_le_card (senders_mono included)

/-- Every tally stands for a quorum of peers exactly when none repeats votes. -/
theorem talliesCountPeers_iff (s : QBFTConsensus) (consensusMsg : QBFTConsensusMsg) :
    s.TalliesCountPeers consensusMsg ↔ ¬ s.CountsRepeatedVotes consensusMsg := by
  constructor
  · rintro tallies ⟨current, repeated⟩
    cases type : consensusMsg.msg.type with
    | prePrepare => simp [type] at repeated
    | decided => simp [type] at repeated
    | prepare =>
        simp only [type] at repeated
        have enough := tallies.prepares _
          (classify_vote .prepare _ (Or.inl ⟨rfl, rfl⟩) type current repeated.2)
        rw [current] at enough
        exact absurd enough (Nat.not_le.mpr repeated.1)
    | commit =>
        simp only [type] at repeated
        have enough := tallies.commits _
          (classify_vote .commit _ (Or.inr ⟨rfl, rfl⟩) type current repeated.2)
        rw [current] at enough
        exact absurd enough (Nat.not_le.mpr repeated.1)
    | roundChange =>
        simp only [type] at repeated
        obtain ⟨nodes, leader, few, counted⟩ := repeated
        have enough := tallies.roundChanges _
          (classify_nullChanges type current nodes leader counted)
        rw [current, roundChangesFor_nullChangesFor] at enough
        exact absurd enough (Nat.not_le.mpr few)
  · intro distinct
    constructor
    · intro justification result
      obtain ⟨type, current, rfl, counted⟩ := classified_of_classify (by decide) result
      rw [current]
      exact quorum_of_not_repetition
        (fun repeated => distinct ⟨current, by rw [type]; exact repeated⟩) counted
    · intro justification result
      obtain ⟨type, current, rfl, counted⟩ := classified_of_classify (by decide) result
      rw [current]
      exact quorum_of_not_repetition
        (fun repeated => distinct ⟨current, by rw [type]; exact repeated⟩) counted
    · intro justification result
      obtain ⟨type, current, found, nodes, leader⟩ := classified_of_classify (by decide) result
      rw [current]
      exact quorum_of_justifiedQrc found
        fun repeated => distinct ⟨current, by rw [type]; exact ⟨nodes, leader, repeated⟩⟩

/-- Over a whole run, the tallies triggered by accepted messages, and likewise those of all
received messages, stand for quorums of peers exactly when none of these messages meets a
tally of repeated votes. -/
theorem run_talliesCountPeers_iff [Crypto] (d : Definition) (t : Transport) (duty : Duty)
    (peer : Nat) (proposalValue : Bytes) (events : List Event) :
    (Machine.Along step
        (fun s event => ∀ consensusMsg, event = .receive consensusMsg →
          s.Accepts consensusMsg → (s.received consensusMsg).TalliesCountPeers consensusMsg)
        (new d t duty peer proposalValue) events ↔
      Machine.Along step
        (fun s event => ∀ consensusMsg, event = .receive consensusMsg →
          s.Accepts consensusMsg → ¬ (s.received consensusMsg).CountsRepeatedVotes consensusMsg)
        (new d t duty peer proposalValue) events) ∧
    (Machine.Along step
        (fun s event => ∀ consensusMsg, event = .receive consensusMsg →
          (s.received consensusMsg).TalliesCountPeers consensusMsg)
        (new d t duty peer proposalValue) events ↔
      Machine.Along step
        (fun s event => ∀ consensusMsg, event = .receive consensusMsg →
          ¬ (s.received consensusMsg).CountsRepeatedVotes consensusMsg)
        (new d t duty peer proposalValue) events) := by
  constructor
  · apply forall₂_congr
    intro point _
    exact forall_congr' fun consensusMsg => imp_congr_right fun _ => imp_congr_right fun _ =>
      talliesCountPeers_iff _ consensusMsg
  · apply forall₂_congr
    intro point _
    exact forall_congr' fun consensusMsg => imp_congr_right fun _ =>
      talliesCountPeers_iff _ consensusMsg

/-- A PREPARE of peer 0 that is delivered over and over. -/
def lonePrepare : QBFTConsensusMsg where
  msg := FourPeers.vote .prepare 0 1 9

/-- The third delivery of one PREPARE triggers the PREPARE quorum of four peers. -/
theorem lonePrepare_not_talliesCountPeers :
    letI := constantCrypto
    ¬ ((Machine.final step (FourPeers.fresh 2)
      [.receive lonePrepare, .receive lonePrepare]).received lonePrepare).TalliesCountPeers
        lonePrepare := by
  intro tallies
  have enough := tallies.prepares (List.replicate 3 lonePrepare.msg) (by decide +kernel)
  exact absurd enough (by decide +kernel)

end QBFTConsensus

end DvSpec.Consensus
