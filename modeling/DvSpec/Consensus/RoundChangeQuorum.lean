import DvSpec.Consensus.Certificates

/-!
# The ROUND-CHANGE quorum of the leader

The leader searches the prepare sets in the order of their insertion and keeps the first
ROUND-CHANGE of each sender.  When every sender's ROUND-CHANGEs agree and each stands on a
prepare quorum, the set of the highest prepared round passes every test of the search.
-/

namespace DvSpec.Consensus

open DvSpec.Library

/-- The ROUND-CHANGEs for a round come from a quorum of peers, agree for each peer on what it
prepared, and each is null-prepared or backed by the PREPAREs of a quorum of peers. -/
structure JustifiedChanges (quorum round : Nat) (messages : List QBFTMsg) : Prop where
  senders_quorum : quorum ≤ (senders (roundChangesFor round messages)).card
  agree : ∀ one ∈ roundChangesFor round messages, ∀ two ∈ roundChangesFor round messages,
    one.peerIdx = two.peerIdx →
      one.preparedRound = two.preparedRound ∧ one.preparedValueHash = two.preparedValueHash
  prepared : ∀ rc ∈ roundChangesFor round messages,
    rc.preparedRound = 0 ∧ rc.preparedValueHash = zeroHash ∨
      1 ≤ rc.preparedRound ∧
        quorum ≤ (senders (votesFor .prepare rc.preparedRound (some rc.preparedValueHash)
          messages)).card

namespace QBFTConsensus

/-! ## The prepare sets -/

/-- A PREPARE of the peer is filed under the key. -/
def Filed (sets : Dict (Nat × Bytes) (Dict Nat QBFTMsg)) (key : Nat × Bytes) (peer : Nat) : Prop :=
  ∃ set, sets.get? key = some set ∧ peer ∈ set.keys

/-- Filing another PREPARE loses none. -/
theorem Filed.filePrepare {sets : Dict (Nat × Bytes) (Dict Nat QBFTMsg)} {key : Nat × Bytes}
    {peer : Nat} (filed : Filed sets key peer) (m : QBFTMsg) :
    Filed (filePrepare sets m) key peer := by
  obtain ⟨set, found, member⟩ := filed
  unfold QBFTConsensus.filePrepare
  split
  · exact ⟨set, found, member⟩
  · split
    · exact ⟨set, found, member⟩
    · rename_i hash _
      by_cases same : key = (m.round, hash)
      · subst same
        refine ⟨_, Dict.get?_set_self _ _ _, ?_⟩
        rw [found, Option.getD_some, Dict.mem_keys_set]
        exact Or.inr member
      · exact ⟨set, (Dict.get?_set_ne _ _ same).trans found, member⟩

/-- A PREPARE for a value is filed under its round, value hash and sender. -/
theorem filed_filePrepare (sets : Dict (Nat × Bytes) (Dict Nat QBFTMsg)) {m : QBFTMsg}
    {valueHash : Bytes} (type : m.type = .prepare) (hashed : m.valueHash = some valueHash) :
    Filed (filePrepare sets m) (m.round, valueHash) m.peerIdx := by
  rw [filePrepare, if_neg (not_not.mpr type), hashed]
  exact ⟨_, Dict.get?_set_self _ _ _, (Dict.mem_keys_set _ _ _ _).mpr (Or.inl rfl)⟩

theorem Filed.foldl {sets : Dict (Nat × Bytes) (Dict Nat QBFTMsg)} {key : Nat × Bytes}
    {peer : Nat} (filed : Filed sets key peer) (messages : List QBFTMsg) :
    Filed (messages.foldl QBFTConsensus.filePrepare sets) key peer := by
  induction messages generalizing sets with
  | nil => exact filed
  | cons m rest ih => exact ih (filed.filePrepare m)

/-- Every PREPARE for a value is filed. -/
theorem filed_of_mem {messages : List QBFTMsg} {m : QBFTMsg} {valueHash : Bytes}
    (sets : Dict (Nat × Bytes) (Dict Nat QBFTMsg)) (member : m ∈ messages)
    (type : m.type = .prepare) (hashed : m.valueHash = some valueHash) :
    Filed (messages.foldl filePrepare sets) (m.round, valueHash) m.peerIdx := by
  induction messages generalizing sets with
  | nil => cases member
  | cons first rest ih =>
      rcases List.mem_cons.mp member with rfl | later
      · exact (filed_filePrepare sets type hashed).foldl rest
      · exact ih _ later

/-- The PREPAREs of a quorum of peers for a value fill a prepare set. -/
theorem exists_prepareSet {messages : List QBFTMsg} {quorum round : Nat} {valueHash : Bytes}
    (positive : 0 < quorum)
    (voted : quorum ≤ (senders (votesFor .prepare round (some valueHash) messages)).card) :
    ∃ set, (prepareSets messages).get? (round, valueHash) = some set ∧ quorum ≤ set.size := by
  have filed : ∀ peer ∈ senders (votesFor .prepare round (some valueHash) messages),
      Filed (prepareSets messages) (round, valueHash) peer := by
    intro peer sender
    obtain ⟨m, vote, rfl⟩ := mem_senders.mp sender
    obtain ⟨member, type, rfl, hashed⟩ := mem_votesFor.mp vote
    exact filed_of_mem Dict.empty member type hashed
  obtain ⟨peer, sender⟩ := Finset.card_pos.mp (Nat.lt_of_lt_of_le positive voted)
  obtain ⟨set, found, -⟩ := filed peer sender
  refine ⟨set, found, ?_⟩
  have included : senders (votesFor .prepare round (some valueHash) messages) ⊆
      set.keys.toFinset := by
    intro other voter
    obtain ⟨same, found', member⟩ := filed other voter
    rw [found] at found'
    cases found'
    exact List.mem_toFinset.mpr member
  calc quorum ≤ _ := voted
    _ ≤ set.keys.toFinset.card := Finset.card_le_card included
    _ = set.keys.length := List.toFinset_card_of_nodup set.keys_nodup
    _ = set.size := List.length_map _

/-! ## The search -/

/-- No sender is lost when nothing was prepared beyond the round of the set. -/
theorem mem_qrcCandidates_senders {pr : Nat} {pv : Option Bytes} {qrc : List QBFTMsg}
    {used : List Nat} (bounded : ∀ rc ∈ qrc, rc.preparedRound ≤ pr) {rc : QBFTMsg}
    (member : rc ∈ qrc) (unused : rc.peerIdx ∉ used) :
    rc.peerIdx ∈ senders (qrcCandidates pr pv qrc used).1 := by
  induction qrc generalizing used with
  | nil => cases member
  | cons first rest ih =>
      have low := bounded first List.mem_cons_self
      have later := fun other inside => bounded other (List.mem_cons_of_mem first inside)
      rw [qrcCandidates, if_neg (by omega)]
      by_cases repeated : first.peerIdx ∈ used
      · rw [if_pos repeated]
        rcases List.mem_cons.mp member with rfl | inside
        · exact absurd repeated unused
        · exact ih later inside unused
      · rw [if_neg repeated, mem_senders]
        by_cases own : rc.peerIdx = first.peerIdx
        · exact ⟨first, List.mem_cons_self, own.symm⟩
        · have inside : rc ∈ rest := (List.mem_cons.mp member).resolve_left
            fun same => own (congrArg _ same)
          obtain ⟨kept, chosen, sender⟩ := mem_senders.mp
            (@ih (first.peerIdx :: used) later inside (List.not_mem_cons_of_ne_of_not_mem own unused))
          exact ⟨kept, List.mem_cons_of_mem _ chosen, sender⟩

/-- A sender all of whose messages prepared exactly the round and value of the set is seen. -/
theorem qrcCandidates_highest {pr : Nat} {pv : Option Bytes} {qrc : List QBFTMsg}
    {used : List Nat} {rc : QBFTMsg} (member : rc ∈ qrc) (unused : rc.peerIdx ∉ used)
    (exactly : ∀ other ∈ qrc, other.peerIdx = rc.peerIdx →
      other.preparedRound = pr ∧ some other.preparedValueHash = pv) :
    (qrcCandidates pr pv qrc used).2 = true := by
  induction qrc generalizing used with
  | nil => cases member
  | cons first rest ih =>
      have later := fun other inside => exactly other (List.mem_cons_of_mem first inside)
      rw [qrcCandidates]
      by_cases own : first.peerIdx = rc.peerIdx
      · obtain ⟨round, hash⟩ := exactly first List.mem_cons_self own
        rw [if_neg (by omega), if_neg (own ▸ unused), Bool.or_eq_true]
        exact Or.inl (decide_eq_true ⟨round, hash⟩)
      · have inside : rc ∈ rest := (List.mem_cons.mp member).resolve_left
          fun same => own (congrArg _ same.symm)
        split
        · exact ih inside unused later
        · split
          · exact ih inside unused later
          · rw [Bool.or_eq_true]
            exact Or.inr (ih inside (List.not_mem_cons_of_ne_of_not_mem (Ne.symm own) unused) later)

/-- One prepare set that passes the tests is enough. -/
theorem preparedQrc_isSome {quorum : Nat} {qrc : List QBFTMsg} {sets : List (Dict Nat QBFTMsg)}
    {set : Dict Nat QBFTMsg} (member : set ∈ sets) {first : QBFTMsg} {others : List QBFTMsg}
    (values : set.values = first :: others) (full : quorum ≤ set.size)
    (changes : quorum ≤ (qrcCandidates first.round first.valueHash qrc []).1.length)
    (highest : (qrcCandidates first.round first.valueHash qrc []).2 = true) :
    (preparedQrc quorum qrc sets).isSome = true := by
  induction sets with
  | nil => cases member
  | cons head rest ih =>
      rcases List.mem_cons.mp member with rfl | later
      · rw [preparedQrc, if_neg (Nat.not_lt.mpr full), values]
        dsimp only
        rw [if_pos ⟨changes, highest⟩]
        rfl
      · rw [preparedQrc]
        split
        · exact ih later
        · split
          · exact ih later
          · dsimp only
            split
            · rfl
            · exact ih later

/-- The prepare set of the highest prepared round is accepted. -/
theorem preparedQrc_of_highest {quorum round : Nat} {messages : List QBFTMsg}
    (justified : JustifiedChanges quorum round messages) (positive : 0 < quorum) {rc : QBFTMsg}
    (member : rc ∈ roundChangesFor round messages) (prepared : 1 ≤ rc.preparedRound)
    (highest : ∀ other ∈ roundChangesFor round messages, other.preparedRound ≤ rc.preparedRound) :
    (preparedQrc quorum (roundChangesFor round messages)
      (prepareSets messages).values).isSome = true := by
  have voted : quorum ≤ (senders (votesFor .prepare rc.preparedRound (some rc.preparedValueHash)
      messages)).card := by
    rcases justified.prepared rc member with ⟨none, -⟩ | ⟨-, voted⟩
    · omega
    · exact voted
  obtain ⟨set, filed, full⟩ := exists_prepareSet positive voted
  obtain ⟨votes, -⟩ := prepareSets_spec filed
  have nonempty : set.values ≠ [] := by
    intro empty
    have length := set.length_values
    rw [empty, List.length_nil] at length
    omega
  obtain ⟨first, others, values⟩ := List.exists_cons_of_ne_nil nonempty
  obtain ⟨-, -, sameRound, sameHash⟩ :=
    mem_votesFor.mp (votes first (values ▸ List.mem_cons_self))
  refine preparedQrc_isSome ((Dict.mem_values_iff _ _).mpr ⟨_, filed⟩) values full ?_ ?_
  · rw [sameRound]
    have kept : senders (roundChangesFor round messages) ⊆ senders
        (qrcCandidates rc.preparedRound first.valueHash (roundChangesFor round messages) []).1 := by
      intro peer sender
      obtain ⟨change, inside, rfl⟩ := mem_senders.mp sender
      exact mem_qrcCandidates_senders highest inside List.not_mem_nil
    calc quorum ≤ _ := justified.senders_quorum
      _ ≤ _ := Finset.card_le_card kept
      _ ≤ _ := card_senders_le _
  · refine qrcCandidates_highest member List.not_mem_nil fun other inside same => ?_
    obtain ⟨sameRound', sameHash'⟩ := justified.agree other inside rc member same
    exact ⟨sameRound'.trans sameRound.symm, by rw [sameHash', sameHash]⟩

/-- A justified quorum is found, whatever the order of the messages. -/
theorem justifiedQrc_isSome {s : QBFTConsensus} {round : Nat} (positive : 0 < s.d.quorum)
    (justified : JustifiedChanges s.d.quorum round s.allMsg) :
    (s.justifiedQrc round).isSome = true := by
  have enough : s.d.quorum ≤ (roundChangesFor round s.allMsg).length :=
    justified.senders_quorum.trans (card_senders_le _)
  unfold justifiedQrc
  dsimp only
  split
  · rfl
  · rename_i few
    cases maximal : (roundChangesFor round s.allMsg).argmax QBFTMsg.preparedRound with
    | none =>
        rw [List.argmax_eq_none.mp maximal, List.length_nil] at enough
        omega
    | some rc =>
        have member := List.argmax_mem maximal
        have highest : ∀ other ∈ roundChangesFor round s.allMsg,
            other.preparedRound ≤ rc.preparedRound :=
          fun other inside => List.le_of_mem_argmax inside maximal
        have prepared : 1 ≤ rc.preparedRound := by
          by_contra none
          -- otherwise all of them are null-prepared and a quorum by themselves
          refine few (enough.trans_eq (congrArg List.length ?_))
          refine (List.filter_eq_self.mpr fun other inside => ?_).symm
          have low := highest other inside
          rcases justified.prepared other inside with null | ⟨some, -⟩
          · exact QBFTMsg.nonePrepared_iff.mpr null
          · omega
        exact preparedQrc_of_highest justified positive member prepared highest

/-- The leader of the current round answers a ROUND-CHANGE for it with the quorum of
ROUND-CHANGEs whenever they are justified. -/
theorem classify_justifiedChanges {s : QBFTConsensus} {consensusMsg : QBFTConsensusMsg}
    (leader : s.d.isLeader s.duty s.round s.peer = .ok true)
    (justified : JustifiedChanges s.d.quorum s.round s.allMsg)
    (type : consensusMsg.msg.type = .roundChange) (current : consensusMsg.msg.round = s.round) :
    ∃ justification, s.classify consensusMsg = .ok (.quorumRoundChanges, justification) := by
  have positive := Definition.quorum_pos (Definition.isLeader_eq_true_iff.mp leader).1
  have enough : s.d.quorum ≤ (roundChangesFor s.round s.allMsg).length :=
    justified.senders_quorum.trans (card_senders_le _)
  obtain ⟨justification, found⟩ := Option.isSome_iff_exists.mp
    (justifiedQrc_isSome positive justified)
  refine ⟨justification, ?_⟩
  simp [classify, classifyRoundChange, type, current, found, leader, Nat.not_lt.mpr enough]

/-- Peer 1 leads round 2 and finds the quorum of two null-prepared peers and a prepared one. -/
theorem classify_justifiedChanges_mixed :
    letI := constantCrypto
    ∃ justification,
      ((Machine.final step (FourPeers.fresh 1)
        [FourPeers.receive (FourPeers.changeTo 0 2),
          .receive (FourPeers.changeWithPrepares 2 9)]).received
            { msg := FourPeers.changeTo 3 2 }).classify { msg := FourPeers.changeTo 3 2 } =
        .ok (.quorumRoundChanges, justification) := by
  let _ := constantCrypto
  exact classify_justifiedChanges (by decide +kernel)
    ⟨by decide +kernel, by decide +kernel, by decide +kernel⟩ rfl (by decide +kernel)

end QBFTConsensus

end DvSpec.Consensus
