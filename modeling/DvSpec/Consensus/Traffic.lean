import DvSpec.Consensus.Acceptance
import DvSpec.Consensus.Network

/-!
# What travels through a network without duplication

Every vote of an undecided peer reaches another peer at most once on its own, and
justifications repeat votes only as complete certificates.  The counts of the
protocol then stand for quorums of peers although they count messages.
-/

namespace DvSpec.Consensus

open DvSpec.Library
open QBFTConsensus

/-! ## Own votes and justifications -/

/-- Votes that no justification contains are counted among the main messages. -/
theorem filter_flatMap_votes {keep : QBFTMsg → Bool} {buffered : List QBFTConsensusMsg}
    (absent : ∀ m ∈ buffered, ∀ j ∈ m.justification, keep j = false) :
    (buffered.flatMap votes).filter keep =
      (buffered.map QBFTConsensusMsg.msg).filter keep := by
  induction buffered with
  | nil => rfl
  | cons m rest ih =>
      have none : m.justification.filter keep = [] :=
        List.filter_eq_nil_iff.mpr fun j member =>
          Bool.eq_false_iff.mp (absent m List.mem_cons_self j member)
      have later := ih fun other member => absent other (List.mem_cons_of_mem _ member)
      rw [List.flatMap_cons, List.map_cons, List.filter_append, later, votes, List.filter_cons,
        List.filter_cons, none]
      split <;> rfl

/-- The message is the vote of a peer of one type for one round. -/
def carries (type : MsgType) (peer round : Nat) (m : QBFTConsensusMsg) : Bool :=
  m.msg.type = type ∧ m.msg.peerIdx = peer ∧ m.msg.round = round

theorem carries_iff {type : MsgType} {peer round : Nat} {m : QBFTConsensusMsg} :
    carries type peer round m = true ↔
      m.msg.type = type ∧ m.msg.peerIdx = peer ∧ m.msg.round = round := by
  simp [carries]

/-- Votes of one type and round that arrive at most once have distinct senders. -/
theorem nodup_senders {keep : QBFTMsg → Bool} {type : MsgType} {round : Nat}
    {buffered : List QBFTConsensusMsg}
    (only : ∀ j, keep j = true → j.type = type ∧ j.round = round)
    (once : ∀ peer, buffered.countP (carries type peer round) ≤ 1) :
    (((buffered.map QBFTConsensusMsg.msg).filter keep).map QBFTMsg.peerIdx).Nodup := by
  rw [List.nodup_iff_count_le_one]
  intro peer
  rw [List.count, List.countP_map, List.countP_filter, List.countP_map]
  refine Nat.le_trans (List.countP_mono_left fun m _ counted => ?_) (once peer)
  obtain ⟨sender, kept⟩ := by simpa using counted
  exact carries_iff.mpr ⟨(only _ kept).1, sender, (only _ kept).2⟩

/-! ## The shape of sent messages -/

/-- What the justification of a sent message consists of. -/
structure WellFormed (k : Committee) (m : QBFTConsensusMsg) : Prop where
  /-- The PREPAREs of a justification come with a quorum of senders. -/
  prepares : ∀ j ∈ m.justification, j.type = .prepare →
    k.d.quorum ≤ (senders (votesFor .prepare j.round j.valueHash m.justification)).card
  /-- Only a PRE-PREPARE carries ROUND-CHANGE messages, for its own round. -/
  changes : ∀ j ∈ m.justification, j.type = .roundChange →
    m.msg.type = .prePrepare ∧ j.round = m.msg.round
  decided : m.msg.type = .decided → ∀ j ∈ m.justification, j.type = .commit
  certificate : m.msg.type = .prePrepare → 1 < m.msg.round →
    k.d.quorum ≤ (senders (roundChangesFor m.msg.round m.justification)).card ∧
      (AllNonePrepared m.msg.round m.justification ∨
        ∃ pr pv, SelectsPrepared k.d.quorum m.msg.round m.justification pr pv ∧
          m.msg.valueHash = some pv)

/-- A message without justification needs one only as a PRE-PREPARE of a later round. -/
theorem wellFormed_of_nil {k : Committee} {m : QBFTConsensusMsg} (none : m.justification = [])
    (plain : m.msg.type = .prePrepare → m.msg.round = 1) : WellFormed k m := by
  constructor
  · simp [none]
  · simp [none]
  · simp [none]
  · exact fun type later => absurd (plain type) (Nat.ne_of_gt later)

/-- The stored votes of an instance are COMMITs and certified PREPAREs. -/
structure StoredVotes (k : Committee) (s : QBFTConsensus) : Prop where
  commits : ∀ j ∈ s.qCommit, j.type = .commit
  prepares : ∀ j ∈ s.preparedJustification, j.type = .prepare ∧
    k.d.quorum ≤ (senders (votesFor .prepare j.round j.valueHash s.preparedJustification)).card

namespace Network

variable [Crypto]

omit [Crypto] in
/-- Some peer has sent the message. -/
def Logged (k : Committee) (c : Cluster) (m : QBFTConsensusMsg) : Prop :=
  ∃ p, k.Honest p ∧ m ∈ c.sent p

/-- What holds in a network without duplication. -/
structure Traffic (k : Committee) (n : Network) : Prop where
  core : n.cluster.Core k
  flight : ∀ entry ∈ n.inFlight, Logged k n.cluster entry.2
  buffered : ∀ p, k.Honest p → ∀ m ∈ (n.cluster.peer p).buffered, Logged k n.cluster m
  authentic : ∀ m, Logged k n.cluster m → ∀ j ∈ m.justification, n.cluster.Authentic k j
  wellFormed : ∀ m, Logged k n.cluster m → WellFormed k m
  stored_authentic : ∀ p, k.Honest p →
    ∀ j ∈ (n.cluster.peer p).qCommit ++ (n.cluster.peer p).preparedJustification,
      n.cluster.Authentic k j
  stored : ∀ p, k.Honest p → StoredVotes k (n.cluster.peer p)
  /-- Each vote reaches each peer at most once. -/
  once : ∀ p, k.Honest p → ∀ type, type ≠ .decided → ∀ peer round,
    (n.pending p).countP (carries type peer round) ≤ 1
  /-- A PREPARE answers a buffered PRE-PREPARE. -/
  answered : ∀ p, k.Honest p → ∀ m ∈ n.cluster.sent p, m.msg.type = .prepare →
    ∃ proposal ∈ (n.cluster.peer p).buffered, proposal.msg.type = .prePrepare ∧
      proposal.msg.round = m.msg.round ∧ proposal.msg.valueHash = m.msg.valueHash
  /-- A PRE-PREPARE comes from the leader of its round. -/
  proposer : ∀ p, k.Honest p → ∀ m ∈ n.cluster.sent p, m.msg.type = .prePrepare →
    k.d.leader k.duty m.msg.round = p
  proposal_unique : ∀ p, k.Honest p → ∀ m ∈ n.cluster.sent p, ∀ m' ∈ n.cluster.sent p,
    m.msg.type = .prePrepare → m'.msg.type = .prePrepare → m.msg.round = m'.msg.round →
    m.msg.valueHash = m'.msg.valueHash

/-! ## Facts about one state -/

section State

variable {k : Committee} {n : Network} {p : Nat} {event : Event}
  {remaining : List (Nat × QBFTConsensusMsg)} {consensusMsg : QBFTConsensusMsg}

omit [Crypto] in
theorem Traffic.logged_header (traffic : n.Traffic k) {m : QBFTConsensusMsg}
    (logged : Logged k n.cluster m) :
    k.Honest m.msg.peerIdx ∧ m ∈ n.cluster.sent m.msg.peerIdx := by
  obtain ⟨q, honest, member⟩ := logged
  have named := ((traffic.core.ledger q honest).header m member).2
  rw [(traffic.core.config q honest).2.2] at named
  rw [named]
  exact ⟨honest, member⟩

omit [Crypto] in
theorem Traffic.logged_authentic (traffic : n.Traffic k) {m : QBFTConsensusMsg}
    (logged : Logged k n.cluster m) : ∀ j ∈ votes m, n.cluster.Authentic k j := by
  intro j member
  rcases List.mem_cons.mp member with rfl | inside
  · obtain ⟨honest, sent⟩ := traffic.logged_header logged
    exact ⟨honest.1, fun _ => ⟨m, sent, rfl⟩⟩
  · exact traffic.authentic m logged j inside

omit [Crypto] in
theorem Traffic.logged_pending (traffic : n.Traffic k) (honest : k.Honest p)
    {m : QBFTConsensusMsg} (member : m ∈ n.pending p) : Logged k n.cluster m := by
  rcases List.mem_append.mp member with old | travels
  · exact traffic.buffered p honest m old
  · exact traffic.flight _ (mem_bound.mp travels)

omit [Crypto] in
theorem Traffic.legal (traffic : n.Traffic k) (honest : k.Honest p)
    (consumes : Consumes n.inFlight p event remaining) :
    n.cluster.Legal k (p, event) :=
  ⟨honest, fun _ received =>
    traffic.logged_authentic (traffic.flight _ (consumes.received received))⟩

/-- A delivered copy joins the buffer out of the pending copies. -/
theorem received_subperm (consumes : Consumes n.inFlight p event remaining)
    (received : event = .receive consensusMsg) :
    ((n.cluster.peer p).received consensusMsg).buffered.Subperm (n.pending p) := by
  have grown := perm_buffered ((n.cluster.peer p).storeValues consensusMsg.values) consensusMsg
  refine grown.subperm.trans (List.Subperm.append (List.Subperm.refl _) ?_)
  rw [List.singleton_subperm_iff]
  exact mem_bound.mpr (consumes.received received)

theorem Traffic.once_received (traffic : n.Traffic k) (honest : k.Honest p)
    (consumes : Consumes n.inFlight p event remaining)
    (received : event = .receive consensusMsg) {type : MsgType} (vote : type ≠ .decided)
    (peer round : Nat) : ((n.cluster.peer p).received consensusMsg).buffered.countP
      (carries type peer round) ≤ 1 :=
  Nat.le_trans ((received_subperm consumes received).countP_le _)
    (traffic.once p honest type vote peer round)

theorem Traffic.logged_received (traffic : n.Traffic k) (honest : k.Honest p)
    (consumes : Consumes n.inFlight p event remaining)
    (received : event = .receive consensusMsg) {m : QBFTConsensusMsg}
    (member : m ∈ ((n.cluster.peer p).received consensusMsg).buffered) :
    Logged k n.cluster m :=
  traffic.logged_pending honest ((received_subperm consumes received).subset member)

omit [Crypto] in
/-- A proposal is only taken up for a round without an earlier PREPARE. -/
theorem Traffic.first_prepare (traffic : n.Traffic k) (honest : k.Honest p)
    (consumes : Consumes n.inFlight p event remaining) {round : Nat} {valueHash : Bytes}
    (takes : TakesUp (n.cluster.peer p, event) round valueHash) :
    ∀ m ∈ n.cluster.sent p, m.msg.type = .prepare → m.msg.round ≠ round := by
  intro m member type same
  obtain ⟨consensusMsg, received, -, proposes, rfl, -⟩ := takes
  obtain ⟨proposal, buffered, proposed, sameRound, -⟩ := traffic.answered p honest m member type
  have travels : consensusMsg ∈ bound p n.inFlight := mem_bound.mpr (consumes.received received)
  have leads : ∀ pp, Logged k n.cluster pp → pp.msg.type = .prePrepare →
      pp.msg.round = consensusMsg.msg.round → carries .prePrepare
        (k.d.leader k.duty consensusMsg.msg.round) consensusMsg.msg.round pp = true := by
    intro pp logged typed here
    obtain ⟨sincere, sent⟩ := traffic.logged_header logged
    refine carries_iff.mpr ⟨typed, ?_, here⟩
    rw [← here]
    exact (traffic.proposer _ sincere pp sent typed).symm
  have twice := traffic.once p honest .prePrepare (by decide)
    (k.d.leader k.duty consensusMsg.msg.round) consensusMsg.msg.round
  have one : 0 < (n.cluster.peer p).buffered.countP _ := List.countP_pos_iff.mpr
    ⟨proposal, buffered, leads proposal (traffic.buffered p honest _ buffered) proposed
      (sameRound.trans same)⟩
  have two : 0 < (bound p n.inFlight).countP _ := List.countP_pos_iff.mpr
    ⟨consensusMsg, travels, leads consensusMsg (traffic.flight _ (mem_bound.mp travels)) proposes
      rfl⟩
  rw [pending, List.countP_append] at twice
  omega

/-- A tally of a delivered message counts senders when justifications repeat such votes only
with a quorum of senders. -/
theorem Traffic.votes_distinct (traffic : n.Traffic k) (honest : k.Honest p)
    (consumes : Consumes n.inFlight p event remaining)
    (received : event = .receive consensusMsg) {type : MsgType} (vote : type ≠ .decided)
    (quorums : ∀ m, Logged k n.cluster m → ∀ j ∈ m.justification, j.type = type →
      k.d.quorum ≤ (senders (votesFor type j.round j.valueHash m.justification)).card)
    (round : Nat) (valueHash : Option Bytes) :
    ¬ QuorumByRepetition k.d.quorum
      (votesFor type round valueHash ((n.cluster.peer p).received consensusMsg).allMsg) := by
  rintro ⟨few, counted⟩
  by_cases certified : ∃ m ∈ ((n.cluster.peer p).received consensusMsg).buffered,
      ∃ j ∈ m.justification, j.type = type ∧ j.round = round ∧ j.valueHash = valueHash
  · obtain ⟨m, buffered, j, inside, rfl, rfl, rfl⟩ := certified
    have logged := traffic.logged_received honest consumes received buffered
    have enough := quorums m logged j inside rfl
    have included : votesFor j.type j.round j.valueHash m.justification ⊆
        votesFor j.type j.round j.valueHash
          ((n.cluster.peer p).received consensusMsg).allMsg := by
      intro vote member
      obtain ⟨among, vote⟩ := mem_votesFor.mp member
      exact mem_votesFor.mpr
        ⟨mem_allMsg.mpr ⟨m, buffered, List.mem_cons_of_mem _ among⟩, vote⟩
    have more := Finset.card_le_card (senders_mono included)
    omega
  · have own : votesFor type round valueHash
        ((n.cluster.peer p).received consensusMsg).allMsg =
        votesFor type round valueHash
          (((n.cluster.peer p).received consensusMsg).buffered.map QBFTConsensusMsg.msg) := by
      rw [allMsg_eq]
      apply filter_flatMap_votes
      intro m buffered j inside
      rw [decide_eq_false_iff_not]
      exact fun vote => certified ⟨m, buffered, j, inside, vote⟩
    have distinct : ((votesFor type round valueHash
        (((n.cluster.peer p).received consensusMsg).buffered.map
          QBFTConsensusMsg.msg)).map QBFTMsg.peerIdx).Nodup :=
      nodup_senders (fun j kept => ⟨(of_decide_eq_true kept).1, (of_decide_eq_true kept).2.1⟩)
        fun peer => traffic.once_received honest consumes received vote peer round
    rw [own] at few counted
    have same : (senders _).card = _ := card_voters_of_nodup QBFTMsg.peerIdx distinct
    omega

/-- The PREPARE tally of a delivered PREPARE counts senders. -/
theorem Traffic.tally_distinct (traffic : n.Traffic k) (honest : k.Honest p)
    (consumes : Consumes n.inFlight p event remaining)
    (received : event = .receive consensusMsg) (round : Nat) (valueHash : Option Bytes) :
    ¬ QuorumByRepetition k.d.quorum
      (votesFor .prepare round valueHash ((n.cluster.peer p).received consensusMsg).allMsg) :=
  traffic.votes_distinct honest consumes received (by decide)
    (fun m logged => (traffic.wellFormed m logged).prepares) round valueHash

/-- Every count of a delivered message counts senders. -/
theorem Traffic.counts (traffic : n.Traffic k) (honest : k.Honest p)
    (consumes : Consumes n.inFlight p event remaining) :
    n.cluster.StepCountsSenders (p, event) := by
  intro consensusMsg received _
  have config : (n.cluster.peer p).d = k.d := (traffic.core.config p honest).1
  have shape := traffic.wellFormed consensusMsg (traffic.flight _ (consumes.received received))
  have positive := Definition.quorum_pos k.nodes
  constructor
  · intro type later _ _ repeated
    rw [config] at repeated
    exact absurd (shape.certificate type later).1 (Nat.not_le.mpr repeated.1)
  · intro _ _ _ _ _ pr repeated
    rw [config] at repeated
    obtain ⟨few, counted⟩ := repeated
    obtain ⟨j, member⟩ := List.exists_mem_of_length_pos (Nat.lt_of_lt_of_le positive counted)
    obtain ⟨inside, type, rfl, hash⟩ := mem_votesFor.mp member
    have enough := shape.prepares j inside type
    rw [hash] at enough
    omega
  · intro _ _ _
    rw [config]
    exact traffic.tally_distinct honest consumes received _ _

omit [Crypto] in
theorem Traffic.single (traffic : n.Traffic k) (honest : k.Honest p)
    (consumes : Consumes n.inFlight p event remaining) :
    n.cluster.SingleProposal (p, event) :=
  fun _ _ takes m member type same =>
    absurd same (traffic.first_prepare honest consumes takes m member type)

/-! ## What a peer sends -/

/-- A leader proposes by rule only after the first round. -/
theorem Traffic.proposes_later (traffic : n.Traffic k)
    (consumes : Consumes n.inFlight p event remaining)
    (received : event = .receive consensusMsg) {justified : List QBFTMsg}
    (fires : (n.cluster.peer p).Fires consensusMsg .quorumRoundChanges justified) :
    1 < (n.cluster.peer p).round := by
  obtain ⟨type, current, -⟩ := fires.classified
  obtain ⟨sincere, sent⟩ := traffic.logged_header
    (traffic.flight _ (consumes.received received))
  have future := ((traffic.core.ledger _ sincere).change_future consensusMsg sent type).1
  rw [current] at future
  exact future

/-- The leader of a later round counts null-prepared messages of distinct senders. -/
theorem Traffic.nullChanges_distinct (traffic : n.Traffic k) (honest : k.Honest p)
    (consumes : Consumes n.inFlight p event remaining)
    (received : event = .receive consensusMsg) {justified : List QBFTMsg}
    (fires : (n.cluster.peer p).Fires consensusMsg .quorumRoundChanges justified) :
    ¬ QuorumByRepetition k.d.quorum (nullChangesFor (n.cluster.peer p).round
      ((n.cluster.peer p).received consensusMsg).allMsg) := by
  obtain ⟨-, -, -, -, leader⟩ := fires.classified
  obtain ⟨config, duty, named⟩ := traffic.core.config p honest
  have later := traffic.proposes_later consumes received fires
  have merged : ∀ messages : List QBFTMsg, nullChangesFor (n.cluster.peer p).round messages =
      messages.filter fun j => j.nonePrepared &&
        decide (j.type = .roundChange ∧ j.round = (n.cluster.peer p).round) :=
    fun messages => List.filter_filter
  have own : nullChangesFor (n.cluster.peer p).round
      ((n.cluster.peer p).received consensusMsg).allMsg =
      nullChangesFor (n.cluster.peer p).round
        (((n.cluster.peer p).received consensusMsg).buffered.map QBFTConsensusMsg.msg) := by
    rw [allMsg_eq, merged, merged]
    apply filter_flatMap_votes
    intro m buffered j inside
    by_contra kept
    obtain ⟨change, round⟩ :=
      of_decide_eq_true (Bool.and_eq_true_iff.mp (Bool.not_eq_false _ ▸ kept)).2
    -- only the own PRE-PREPARE of this round would contain the vote
    have logged := traffic.logged_received honest consumes received buffered
    obtain ⟨proposes, same⟩ := (traffic.wellFormed m logged).changes j inside change
    obtain ⟨sincere, sent⟩ := traffic.logged_header logged
    have byLeader := traffic.proposer _ sincere m sent proposes
    rw [← same, round, ← config, ← duty] at byLeader
    rw [d_received, duty_received, round_received, peer_received, named] at leader
    rw [byLeader.symm.trans leader] at sent
    have here : m.msg.round = (n.cluster.peer p).round := same.symm.trans round
    have spent := (traffic.core.ledger p honest).prePrepare_spent m sent proposes (here ▸ later)
    exact absurd here (Nat.ne_of_lt (fires.beyond_spent spent))
  rintro ⟨few, counted⟩
  have distinct : ((nullChangesFor (n.cluster.peer p).round
      (((n.cluster.peer p).received consensusMsg).buffered.map
        QBFTConsensusMsg.msg)).map QBFTMsg.peerIdx).Nodup := by
    rw [merged]
    exact nodup_senders (fun j kept => of_decide_eq_true (Bool.and_eq_true_iff.mp kept).2)
      fun peer => traffic.once_received honest consumes received (by decide) peer _
  rw [own] at few counted
  have same : (senders _).card = _ := card_voters_of_nodup QBFTMsg.peerIdx distinct
  omega

/-- The votes in the justification of a sent message are authentic. -/
theorem Traffic.sent_authentic (traffic : n.Traffic k) (honest : k.Honest p)
    (consumes : Consumes n.inFlight p event remaining) {m : QBFTConsensusMsg}
    (sent : m ∈ sentAt (n.cluster.peer p, event)) :
    ∀ j ∈ m.justification, n.cluster.Authentic k j := by
  have stored := traffic.stored_authentic p honest
  cases sends_of_mem_sentAt sent with
  | decided _ _ _ _ _ _ justification =>
      rw [justification]
      exact fun j member => stored j (List.mem_append_left _ member)
  | prepare _ _ _ _ _ _ justification => simp [justification]
  | commit _ _ _ _ _ _ _ justification => simp [justification]
  | roundChange _ _ _ _ justification =>
      rw [justification]
      exact fun j member => stored j (List.mem_append_right _ member)
  | prePrepare consensusMsg received justified fires _ _ _ justification =>
      rw [justification]
      intro j member
      obtain ⟨-, -, found, -⟩ := fires.classified
      exact traffic.core.authentic_received (traffic.legal honest consumes) received j
        (mem_of_mem_justifiedQrc found member)

/-- The justification of a sent message is well formed. -/
theorem Traffic.sent_wellFormed (traffic : n.Traffic k) (honest : k.Honest p)
    (consumes : Consumes n.inFlight p event remaining) {m : QBFTConsensusMsg}
    (sent : m ∈ sentAt (n.cluster.peer p, event)) : WellFormed k m := by
  have stored := traffic.stored p honest
  cases sends_of_mem_sentAt sent with
  | decided _ _ _ _ _ built justification =>
      have commits : ∀ j ∈ m.justification, j.type = .commit := justification ▸ stored.commits
      constructor
      · intro j member type
        cases (commits j member).symm.trans type
      · intro j member type
        cases (commits j member).symm.trans type
      · exact fun _ => commits
      · intro type
        cases built.type_eq.symm.trans type
  | prepare _ _ _ _ _ built justification =>
      apply wellFormed_of_nil justification
      intro type
      cases built.type_eq.symm.trans type
  | commit _ _ _ _ _ _ built justification =>
      apply wellFormed_of_nil justification
      intro type
      cases built.type_eq.symm.trans type
  | roundChange _ _ _ built justification =>
      have prepares : ∀ j ∈ m.justification, j.type = .prepare ∧ k.d.quorum ≤
          (senders (votesFor .prepare j.round j.valueHash m.justification)).card :=
        justification ▸ stored.prepares
      constructor
      · exact fun j member _ => (prepares j member).2
      · intro j member type
        cases (prepares j member).1.symm.trans type
      · intro type
        cases built.type_eq.symm.trans type
      · intro type
        cases built.type_eq.symm.trans type
  | prePrepare consensusMsg received justified fires _ _ built justification =>
      obtain ⟨-, -, found, -⟩ := fires.classified
      have config : (n.cluster.peer p).d = k.d := (traffic.core.config p honest).1
      constructor
      · rw [justification]
        intro j member type
        have enough := quorum_of_mem_justifiedQrc found member type
        rw [d_received, config] at enough
        exact enough
      · rw [justification]
        intro j member type
        exact ⟨built.type_eq,
          (round_of_mem_justifiedQrc found member type).trans built.round_eq.symm⟩
      · intro type
        cases built.type_eq.symm.trans type
      · intro type later
        obtain ⟨-, -, -, value⟩ := sends_prePrepare (sends_of_mem_sentAt sent) type
        rw [show (n.cluster.peer p, event).1.d = k.d from config] at value
        refine ⟨?_, value⟩
        have distinct := traffic.nullChanges_distinct honest consumes received fires
        rw [← config] at distinct
        have enough := quorum_of_justifiedQrc found distinct
        rw [d_received, config] at enough
        rw [justification, built.round_eq]
        exact enough

theorem Traffic.sent_later (traffic : n.Traffic k)
    (consumes : Consumes n.inFlight p event remaining) {x : QBFTConsensusMsg}
    (sent : x ∈ sentAt (n.cluster.peer p, event)) (type : x.msg.type = .prePrepare) :
    1 < x.msg.round := by
  obtain ⟨consensusMsg, justified, _, received, fires, -, built, -⟩ :=
    (sends_of_mem_sentAt sent).of_prePrepare type
  rw [built.round_eq]
  exact traffic.proposes_later consumes received fires

/-- A peer sends every vote for the first time. -/
theorem Traffic.sent_fresh (traffic : n.Traffic k) (honest : k.Honest p)
    (consumes : Consumes n.inFlight p event remaining) {x : QBFTConsensusMsg}
    (sent : x ∈ sentAt (n.cluster.peer p, event)) (vote : x.msg.type ≠ .decided) :
    ∀ m ∈ n.cluster.sent p, m.msg.type = x.msg.type → m.msg.round ≠ x.msg.round := by
  have ledger := traffic.core.ledger p honest
  intro m member same
  cases type : x.msg.type with
  | decided => exact absurd type vote
  | commit => exact Nat.ne_of_lt (ledger.commit_fresh sent type member (same.trans type))
  | roundChange => exact Nat.ne_of_lt (ledger.change_fresh sent type member)
  | prepare =>
      obtain ⟨valueHash, takes, -⟩ := takesUp_of_mem_sentAt sent type
      exact traffic.first_prepare honest consumes takes m member (same.trans type)
  | prePrepare =>
      intro here
      have later : 1 < x.msg.round := traffic.sent_later consumes sent type
      exact absurd here (Nat.ne_of_lt
        (ledger.prePrepare_fresh sent type member (same.trans type) (here ▸ later)))

/-! ## One event keeps the traffic in order -/

theorem Logged.act {m : QBFTConsensusMsg} (logged : Logged k n.cluster m) :
    Logged k (n.act p event remaining).cluster m := by
  obtain ⟨q, honest, member⟩ := logged
  exact ⟨q, honest, Cluster.sent_step_subset q member⟩

theorem logged_of_sent (honest : k.Honest p) {m : QBFTConsensusMsg}
    (sent : m ∈ sentAt (n.cluster.peer p, event)) :
    Logged k (n.act p event remaining).cluster m := by
  refine ⟨p, honest, ?_⟩
  change m ∈ (n.cluster.step (p, event)).2.sent (p, event).1
  rw [Cluster.sent_step_self]
  exact List.mem_append_right _ sent

/-- A message logged after an event was logged before or is sent by it. -/
theorem Logged.cases_act {m : QBFTConsensusMsg}
    (logged : Logged k (n.act p event remaining).cluster m) :
    Logged k n.cluster m ∨ m ∈ sentAt (n.cluster.peer p, event) := by
  obtain ⟨q, honest, member⟩ := logged
  rcases Cluster.mem_sent_step member with old | ⟨rfl, new⟩
  · exact Or.inl ⟨q, honest, old⟩
  · exact Or.inr new

/-- The buffer of a peer after an event holds pending copies and keeps the old ones. -/
theorem buffered_act (consumes : Consumes n.inFlight p event remaining) (q : Nat) :
    (n.cluster.peer q).buffered ⊆ ((n.act p event remaining).cluster.peer q).buffered ∧
      ((n.act p event remaining).cluster.peer q).buffered ⊆ n.pending q := by
  rcases eq_or_ne q p with rfl | other
  · change _ ⊆ ((n.cluster.step (q, event)).2.peer (q, event).1).buffered ∧
      ((n.cluster.step (q, event)).2.peer (q, event).1).buffered ⊆ _
    rw [Cluster.peer_step_self]
    rcases ((n.cluster.peer q).step_effect event).buffer with
      same | ⟨consensusMsg, received, -, same⟩
    · rw [buffered_congr same]
      exact ⟨List.Subset.refl _, List.subset_append_left _ _⟩
    · rw [buffered_congr same]
      exact ⟨fun m member => mem_buffered_bufferMessage.mpr (Or.inl member),
        (received_subperm consumes received).subset⟩
  · change _ ⊆ ((n.cluster.step (p, event)).2.peer q).buffered ∧
      ((n.cluster.step (p, event)).2.peer q).buffered ⊆ _
    rw [Cluster.peer_step_ne other]
    exact ⟨List.Subset.refl _, List.subset_append_left _ _⟩

/-- A sent PREPARE answers a PRE-PREPARE that is now in the buffer. -/
theorem answered_of_sent {s : QBFTConsensus} {m : QBFTConsensusMsg}
    (sent : m ∈ sentAt (s, event)) (type : m.msg.type = .prepare) :
    ∃ proposal ∈ (s.step event).2.buffered, proposal.msg.type = .prePrepare ∧
      proposal.msg.round = m.msg.round ∧ proposal.msg.valueHash = m.msg.valueHash := by
  obtain ⟨consensusMsg, valueHash, -, fires, known, built, after⟩ :=
    (sends_of_mem_sentAt sent).of_prepare type
  refine ⟨consensusMsg, ?_, fires.classified.1, built.round_eq.symm,
    known.trans built.valueHash_eq.symm⟩
  rw [show (s.step event).2 = _ from after, buffered_congr (buffer_changeRound _ _),
    buffered_congr (buffer_marked _ _ _)]
  exact mem_buffered_bufferMessage.mpr (Or.inr rfl)

/-- New stored votes are COMMITs or certified PREPAREs and authentic. -/
theorem Traffic.stored_step (traffic : n.Traffic k) (honest : k.Honest p)
    (consumes : Consumes n.inFlight p event remaining) :
    StoredVotes k ((n.cluster.peer p).step event).2 ∧
      ∀ j ∈ ((n.cluster.peer p).step event).2.qCommit ++
        ((n.cluster.peer p).step event).2.preparedJustification, n.cluster.Authentic k j := by
  have effect := (n.cluster.peer p).step_effect event
  have config : (n.cluster.peer p).d = k.d := (traffic.core.config p honest).1
  have stored := traffic.stored p honest
  have authentic := traffic.stored_authentic p honest
  have legal := traffic.legal honest consumes
  have commits : (∀ j ∈ ((n.cluster.peer p).step event).2.qCommit, j.type = .commit) ∧
      ∀ j ∈ ((n.cluster.peer p).step event).2.qCommit, n.cluster.Authentic k j := by
    rcases effect.qCommit with same | ⟨consensusMsg, rule, received, deciding, fires⟩
    · rw [same]
      exact ⟨stored.commits, fun j member => authentic j (List.mem_append_left _ member)⟩
    · rcases deciding with rfl | rfl
      · obtain ⟨-, -, chosen, -⟩ := fires.classified
        rw [chosen]
        exact ⟨fun j member => (mem_votesFor.mp member).2.1, fun j member =>
          traffic.core.authentic_received legal received j (mem_votesFor.mp member).1⟩
      · obtain ⟨type, chosen⟩ := fires.classified
        rw [chosen]
        have logged := traffic.flight _ (consumes.received received)
        exact ⟨(traffic.wellFormed _ logged).decided type, traffic.authentic _ logged⟩
  have prepares : (∀ j ∈ ((n.cluster.peer p).step event).2.preparedJustification,
        j.type = .prepare ∧ k.d.quorum ≤ (senders (votesFor .prepare j.round j.valueHash
          ((n.cluster.peer p).step event).2.preparedJustification)).card) ∧
      ∀ j ∈ ((n.cluster.peer p).step event).2.preparedJustification,
        n.cluster.Authentic k j := by
    rcases effect.preparedState with ⟨-, -, same⟩ | ⟨consensusMsg, received, fires, -⟩
    · rw [same]
      exact ⟨stored.prepares, fun j member => authentic j (List.mem_append_right _ member)⟩
    · obtain ⟨-, -, chosen, counted⟩ := fires.classified
      rw [chosen, d_received, config] at counted
      have enough := quorum_of_not_repetition
        (traffic.tally_distinct honest consumes received _ _) counted
      rw [chosen]
      refine ⟨fun j member => ?_, fun j member =>
        traffic.core.authentic_received legal received j (mem_votesFor.mp member).1⟩
      obtain ⟨-, type, round, hash⟩ := mem_votesFor.mp member
      refine ⟨type, ?_⟩
      rw [round, hash, votesFor_eq_self fun vote inside => (mem_votesFor.mp inside).2]
      exact enough
  refine ⟨⟨commits.1, prepares.1⟩, fun j member => ?_⟩
  rcases List.mem_append.mp member with commit | prepare
  · exact commits.2 j commit
  · exact prepares.2 j prepare

/-- A sent vote is the first one of its kind and round on the way to each peer. -/
theorem Traffic.once_act (traffic : n.Traffic k) (honest : k.Honest p)
    (consumes : Consumes n.inFlight p event remaining) {q : Nat} (receiver : k.Honest q)
    {type : MsgType} (vote : type ≠ .decided) (peer round : Nat) :
    ((n.act p event remaining).pending q).countP (carries type peer round) ≤ 1 := by
  have grown := (pending_act_subperm consumes q).countP_le (carries type peer round)
  rw [List.countP_append] at grown
  have before := traffic.once q receiver type vote peer round
  cases copy : (n.cluster.step (p, event)).1[q]? with
  | none =>
      rw [copy, Option.toList_none, List.countP_nil] at grown
      omega
  | some x =>
      rw [copy, Option.toList_some, List.countP_singleton] at grown
      split at grown
      · rename_i carried
        have sent : x ∈ sentAt (n.cluster.peer p, event) := List.mem_of_getElem? copy
        obtain ⟨typed, named, here⟩ := carries_iff.mp carried
        have header := (sends_of_mem_sentAt sent).header.2.1
        have own : peer = p := named.symm.trans
          (header.trans (traffic.core.config p honest).2.2)
        have none : (n.pending q).countP (carries type peer round) = 0 := by
          apply List.countP_eq_zero.mpr
          intro m member carried'
          obtain ⟨typed', named', here'⟩ := carries_iff.mp carried'
          have logged := (traffic.logged_header (traffic.logged_pending receiver member)).2
          rw [named', own] at logged
          exact traffic.sent_fresh honest consumes sent (typed ▸ vote) m logged
            (typed'.trans typed.symm) (here'.trans here.symm)
        omega
      · omega

/-- One event keeps the traffic in order. -/
theorem Traffic.act (traffic : n.Traffic k) (honest : k.Honest p)
    (consumes : Consumes n.inFlight p event remaining) :
    (n.act p event remaining).Traffic k := by
  constructor
  · exact traffic.core.step (traffic.legal honest consumes) (traffic.counts honest consumes)
      (traffic.single honest consumes)
  · intro entry member
    rcases List.mem_append.mp member with old | new
    · exact (traffic.flight entry (consumes.sublist.subset old)).act
    · exact logged_of_sent honest (mem_of_mem_addressed new)
  · intro q receiver m member
    exact (traffic.logged_pending receiver ((buffered_act consumes q).2 member)).act
  · intro m logged j member
    rcases logged.cases_act with old | new
    · exact (traffic.authentic m old j member).step
    · exact (traffic.sent_authentic honest consumes new j member).step
  · intro m logged
    rcases logged.cases_act with old | new
    · exact traffic.wellFormed m old
    · exact traffic.sent_wellFormed honest consumes new
  · intro q other j member
    rcases eq_or_ne q p with rfl | apart
    · change j ∈ ((n.cluster.step (q, event)).2.peer (q, event).1).qCommit ++
        ((n.cluster.step (q, event)).2.peer (q, event).1).preparedJustification at member
      rw [Cluster.peer_step_self] at member
      exact ((traffic.stored_step honest consumes).2 j member).step
    · change j ∈ ((n.cluster.step (p, event)).2.peer q).qCommit ++
        ((n.cluster.step (p, event)).2.peer q).preparedJustification at member
      rw [Cluster.peer_step_ne apart] at member
      exact (traffic.stored_authentic q other j member).step
  · intro q other
    rcases eq_or_ne q p with rfl | apart
    · change StoredVotes k ((n.cluster.step (q, event)).2.peer (q, event).1)
      rw [Cluster.peer_step_self]
      exact (traffic.stored_step honest consumes).1
    · change StoredVotes k ((n.cluster.step (p, event)).2.peer q)
      rw [Cluster.peer_step_ne apart]
      exact traffic.stored q other
  · exact fun q receiver type vote peer round =>
      traffic.once_act honest consumes receiver vote peer round
  · intro q other m member type
    rcases Cluster.mem_sent_step member with old | ⟨rfl, new⟩
    · obtain ⟨proposal, buffered, answers⟩ := traffic.answered q other m old type
      exact ⟨proposal, (buffered_act consumes q).1 buffered, answers⟩
    · change ∃ proposal ∈ ((n.cluster.step (q, event)).2.peer (q, event).1).buffered, _
      rw [Cluster.peer_step_self]
      exact answered_of_sent new type
  · intro q other m member type
    rcases Cluster.mem_sent_step member with old | ⟨rfl, new⟩
    · exact traffic.proposer q other m old type
    · obtain ⟨config, duty, named⟩ := traffic.core.config q honest
      obtain ⟨-, leader, -⟩ := sends_prePrepare (sends_of_mem_sentAt new) type
      have header := (sends_of_mem_sentAt new).header.2.1
      rw [show (n.cluster.peer q, event).1.d = k.d from config,
        show (n.cluster.peer q, event).1.duty = k.duty from duty] at leader
      exact leader.trans (header.trans named)
  · intro q other m member m' member' type type' same
    rcases Cluster.mem_sent_step member with old | ⟨rfl, new⟩
    · rcases Cluster.mem_sent_step member' with old' | ⟨rfl, new'⟩
      · exact traffic.proposal_unique q other m old m' old' type type' same
      · exact absurd same (traffic.sent_fresh honest consumes new' (by rw [type']; decide) m old
          (type.trans type'.symm))
    · rcases Cluster.mem_sent_step member' with old' | ⟨-, new'⟩
      · exact absurd same.symm (traffic.sent_fresh honest consumes new (by rw [type]; decide) m'
          old' (type'.trans type.symm))
      · cases ((n.cluster.peer q).step_effect event).one_broadcast new new'
        rfl

end State

end Network

end DvSpec.Consensus
