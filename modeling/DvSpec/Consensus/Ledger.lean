import DvSpec.Consensus.VoteRounds

/-!
# An instance and its log

What an instance has sent so far, related to the state it is in: rounds of the
votes, the prepared state behind its COMMITs and ROUND-CHANGE messages, and the
rules that are spent.  One event keeps all of it.
-/

namespace DvSpec.Consensus

open DvSpec.Library

namespace QBFTConsensus

variable [Crypto]

/-- What an instance and the messages it has sent owe each other. -/
structure Ledger (s : QBFTConsensus) (log : List QBFTConsensusMsg) : Prop where
  sound : s.Sound
  header : ∀ m ∈ log, m.msg.duty = s.duty ∧ m.msg.peerIdx = s.peer
  /-- Every vote but a ROUND-CHANGE is for some value. -/
  value : ∀ m ∈ log, m.msg.type ≠ .roundChange → ∃ valueHash, m.msg.valueHash = some valueHash
  round_le : s.qCommit = [] → ∀ m ∈ log, m.msg.round ≤ s.round
  commit_le_prepared : ∀ m ∈ log, m.msg.type = .commit →
    ∃ pr, s.preparedRound = some pr ∧ m.msg.round ≤ pr
  /-- A ROUND-CHANGE reports every COMMIT of an earlier round. -/
  commit_reported : ∀ m ∈ log, m.msg.type = .commit → ∀ rc ∈ log, rc.msg.type = .roundChange →
    m.msg.round < rc.msg.round → m.msg.round ≤ rc.msg.preparedRound
  change_future : ∀ rc ∈ log, rc.msg.type = .roundChange →
    1 < rc.msg.round ∧ rc.msg.preparedRound < rc.msg.round
  commit_spent : ∀ m ∈ log, m.msg.type = .commit → s.Spent .quorumPrepares m.msg.round
  prePrepare_spent : ∀ m ∈ log, m.msg.type = .prePrepare → 1 < m.msg.round →
    s.Spent .quorumRoundChanges m.msg.round

/-- An instance that sends is undecided before and after, apart from repeated decisions. -/
theorem Sends.undecided {s next : QBFTConsensus} {event : Event} {copy : QBFTConsensusMsg}
    (sends : s.Sends event next copy) (type : copy.msg.type ≠ .decided) :
    s.qCommit = [] ∧ next.qCommit = [] := by
  cases sends with
  | decided _ _ _ _ _ built => exact absurd built.type_eq type
  | prepare _ _ fires _ _ _ _ after =>
      subst after
      exact ⟨fires.undecided, by simpa using fires.undecided⟩
  | commit _ _ _ fires _ _ _ _ after =>
      subst after
      exact ⟨fires.undecided, fires.undecided⟩
  | roundChange undecided => exact undecided
  | prePrepare _ _ _ fires _ _ _ _ after =>
      subst after
      exact ⟨fires.undecided, fires.undecided⟩

theorem Sends.value {s next : QBFTConsensus} {event : Event} {copy : QBFTConsensusMsg}
    (sends : s.Sends event next copy) (type : copy.msg.type ≠ .roundChange) :
    ∃ valueHash, copy.msg.valueHash = some valueHash := by
  cases sends with
  | decided _ _ _ valueHash _ built => exact ⟨valueHash, built.valueHash_eq⟩
  | prepare _ _ _ valueHash _ built => exact ⟨valueHash, built.valueHash_eq⟩
  | commit _ _ _ _ valueHash _ built => exact ⟨valueHash, built.valueHash_eq⟩
  | roundChange _ _ _ built => exact absurd built.type_eq type
  | prePrepare _ _ _ _ valueHash _ built => exact ⟨valueHash, built.valueHash_eq⟩

/-- A sent COMMIT leaves its round as the prepared one. -/
theorem Sends.commit_prepared {s next : QBFTConsensus} {event : Event} {copy : QBFTConsensusMsg}
    (sends : s.Sends event next copy) (type : copy.msg.type = .commit) :
    next.preparedRound = some copy.msg.round ∧ copy.msg.round = s.round := by
  obtain ⟨_, _, _, -, -, -, built, after⟩ := sends.of_commit type
  subst after
  exact ⟨congrArg some built.round_eq.symm, built.round_eq⟩

/-- A sent ROUND-CHANGE moves to its round and reports the prepared one. -/
theorem Sends.change {s next : QBFTConsensus} {event : Event} {copy : QBFTConsensusMsg}
    (sends : s.Sends event next copy) (type : copy.msg.type = .roundChange) :
    s.round < copy.msg.round ∧ copy.msg.preparedRound = s.preparedRound.getD 0 := by
  obtain ⟨future, built, -⟩ := sends.of_roundChange type
  exact ⟨by rw [built.round_eq]; exact future, built.preparedRound_eq⟩

namespace Ledger

variable {s : QBFTConsensus} {log : List QBFTConsensusMsg}

omit [Crypto] in
/-- The prepared round reported by an undecided instance is not beyond its round. -/
theorem reported_le (ledger : s.Ledger log) (undecided : s.qCommit = []) :
    s.preparedRound.getD 0 ≤ s.round := by
  cases prepared : s.preparedRound with
  | none => exact Nat.zero_le _
  | some pr => exact ((ledger.sound.prepared undecided).2 pr prepared).2

theorem preparedRound_mono (ledger : s.Ledger log) {event : Event} {outcome : Outcome}
    (effect : s.Effect event outcome) {pr : Nat} (prepared : s.preparedRound = some pr) :
    ∃ later, outcome.2.preparedRound = some later ∧ pr ≤ later := by
  rcases effect.preparedState with ⟨same, -⟩ | ⟨_, -, fires, now, -⟩
  · exact ⟨pr, same.trans prepared, Nat.le_refl _⟩
  · exact ⟨s.round, now, ((ledger.sound.prepared fires.undecided).2 pr prepared).2⟩

/-- One event extends the log by what it sends and keeps the ledger. -/
theorem step (ledger : s.Ledger log) (event : Event) :
    (s.step event).2.Ledger (log ++ outgoing (s.step event).1) := by
  have effect := s.step_effect event
  have nodes := ledger.sound.nodes
  have sends : ∀ m ∈ outgoing (s.step event).1, s.Sends event (s.step event).2 m :=
    fun m member => effect.sends member
  have config := effect.sameConfig
  constructor
  · exact ledger.sound.step event
  · intro m member
    rw [config.duty, config.peer]
    rcases List.mem_append.mp member with old | new
    · exact ledger.header m old
    · obtain ⟨duty, peer, -⟩ := (sends m new).header
      exact ⟨duty, peer⟩
  · intro m member type
    rcases List.mem_append.mp member with old | new
    · exact ledger.value m old type
    · exact (sends m new).value type
  · intro undecided m member
    have before := effect.undecided undecided
    rcases List.mem_append.mp member with old | new
    · have bounded := ledger.round_le before m old
      rcases effect.moves nodes undecided with later | ⟨same, -⟩ <;> omega
    · exact Nat.le_of_eq (sends m new).header.2.2
  · intro m member type
    rcases List.mem_append.mp member with old | new
    · obtain ⟨pr, prepared, bounded⟩ := ledger.commit_le_prepared m old type
      obtain ⟨later, now, after⟩ := ledger.preparedRound_mono effect prepared
      exact ⟨later, now, Nat.le_trans bounded after⟩
    · exact ⟨_, ((sends m new).commit_prepared type).1, Nat.le_refl _⟩
  · intro m member type rc rcMember change later
    rcases List.mem_append.mp member with old | new
    · rcases List.mem_append.mp rcMember with rcOld | rcNew
      · exact ledger.commit_reported m old type rc rcOld change later
      · obtain ⟨pr, prepared, bounded⟩ := ledger.commit_le_prepared m old type
        rw [((sends rc rcNew).change change).2, prepared]
        exact bounded
    · rcases List.mem_append.mp rcMember with rcOld | rcNew
      · -- a ROUND-CHANGE sent before the COMMIT is not for a later round
        have undecided := ((sends m new).undecided (by rw [type]; decide)).1
        have bounded := ledger.round_le undecided rc rcOld
        rw [((sends m new).commit_prepared type).2] at later
        exact absurd later (Nat.not_lt.mpr bounded)
      · cases effect.one_broadcast new rcNew
        cases type.symm.trans change
  · intro rc member change
    rcases List.mem_append.mp member with old | new
    · exact ledger.change_future rc old change
    · obtain ⟨future, reported⟩ := (sends rc new).change change
      have undecided := ((sends rc new).undecided (by rw [change]; decide)).1
      have positive := (ledger.sound.prepared undecided).1
      have bounded := ledger.reported_le undecided
      exact ⟨Nat.lt_of_le_of_lt positive future,
        reported ▸ Nat.lt_of_le_of_lt bounded future⟩
  · intro m member type
    rcases List.mem_append.mp member with old | new
    · exact effect.spent nodes (ledger.commit_spent m old type)
    · exact ((sends m new).spent (Or.inl ⟨type, rfl⟩)).1
  · intro m member type later
    rcases List.mem_append.mp member with old | new
    · exact effect.spent nodes (ledger.prePrepare_spent m old type later)
    · exact ((sends m new).spent (Or.inr ⟨type, rfl⟩)).1

/-- A COMMIT is never repeated for its round. -/
theorem commit_fresh (ledger : s.Ledger log) {event : Event} {copy m : QBFTConsensusMsg}
    (sent : copy ∈ outgoing (s.step event).1) (type : copy.msg.type = .commit)
    (member : m ∈ log) (same : m.msg.type = .commit) : m.msg.round < copy.msg.round :=
  (((s.step_effect event).sends sent).spent (Or.inl ⟨type, rfl⟩)).2 _
    (ledger.commit_spent m member same)

/-- A PRE-PREPARE of a later round is never repeated for its round. -/
theorem prePrepare_fresh (ledger : s.Ledger log) {event : Event} {copy m : QBFTConsensusMsg}
    (sent : copy ∈ outgoing (s.step event).1) (type : copy.msg.type = .prePrepare)
    (member : m ∈ log) (same : m.msg.type = .prePrepare) (later : 1 < m.msg.round) :
    m.msg.round < copy.msg.round :=
  (((s.step_effect event).sends sent).spent (Or.inr ⟨type, rfl⟩)).2 _
    (ledger.prePrepare_spent m member same later)

/-- A ROUND-CHANGE is for a later round than everything sent before. -/
theorem change_fresh (ledger : s.Ledger log) {event : Event} {copy m : QBFTConsensusMsg}
    (sent : copy ∈ outgoing (s.step event).1) (type : copy.msg.type = .roundChange)
    (member : m ∈ log) : m.msg.round < copy.msg.round := by
  have sends := (s.step_effect event).sends sent
  have undecided := (sends.undecided (by rw [type]; decide)).1
  exact Nat.lt_of_le_of_lt (ledger.round_le undecided m member) (sends.change type).1

end Ledger

end QBFTConsensus

end DvSpec.Consensus
