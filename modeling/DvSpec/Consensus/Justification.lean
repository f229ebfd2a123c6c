import DvSpec.Consensus.Reaction

/-!
# What the justification checks accept

Each check is characterised by the messages of the justification it counts.  The
counts are list lengths, so a certificate proves a quorum of peers exactly when
no quorum is reached by repeating the votes of the same senders.
-/

namespace DvSpec.Consensus

open DvSpec.Library

/-- The distinct senders of a list of messages. -/
def senders (messages : List QBFTMsg) : Finset Nat := voters QBFTMsg.peerIdx messages

theorem mem_senders {messages : List QBFTMsg} {peer : Nat} :
    peer ∈ senders messages ↔ ∃ j ∈ messages, j.peerIdx = peer := mem_voters _

/-- The value a PRE-PREPARE justification with prepared ROUND-CHANGE messages selects:
the first highest prepared key has enough PREPAREs, no ROUND-CHANGE goes beyond it and
one of them reports exactly it. -/
def SelectsPrepared (quorum round : Nat) (justification : List QBFTMsg) (pr : Nat)
    (pv : Bytes) : Prop :=
  FirstHighest justification pr pv ∧
    quorum ≤ (votesFor .prepare pr (some pv) justification).length ∧
    (∀ rc ∈ roundChangesFor round justification, rc.preparedRound ≤ pr) ∧
    ∃ rc ∈ roundChangesFor round justification,
      rc.preparedRound = pr ∧ rc.preparedValueHash = pv

/-- Every ROUND-CHANGE message of the round is null-prepared. -/
def AllNonePrepared (round : Nat) (justification : List QBFTMsg) : Prop :=
  ∀ rc ∈ roundChangesFor round justification, rc.nonePrepared = true

namespace QBFTConsensus

variable {s : QBFTConsensus} {consensusMsg : QBFTConsensusMsg}

theorem isJustifiedDecided_iff :
    s.isJustifiedDecided consensusMsg = true ↔
      consensusMsg.msg.type = .decided ∧
        s.d.quorum ≤ (votesFor .commit consensusMsg.msg.round consensusMsg.msg.valueHash
          consensusMsg.justification).length := by
  unfold isJustifiedDecided
  dsimp only
  split
  · rename_i other
    simp [other]
  · rename_i type
    simp [not_not.mp type]

theorem isJustifiedRoundChange_iff :
    s.isJustifiedRoundChange consensusMsg = true ↔
      consensusMsg.msg.type = .roundChange ∧
        ((consensusMsg.justification = [] ∧ consensusMsg.msg.nonePrepared = true) ∨
          s.d.quorum ≤ (votesFor .prepare consensusMsg.msg.preparedRound
            (some consensusMsg.msg.preparedValueHash) consensusMsg.justification).length) := by
  unfold isJustifiedRoundChange
  simp only [QBFTMsg.nonePrepared_iff, List.length_eq_zero_iff]
  split
  · rename_i other
    simp [other]
  · rename_i type
    rw [not_not.mp type]
    split
    · rename_i none
      simp [none]
    · rename_i some
      simp [some]

/-- The tests on the highest prepared key accept exactly when it selects the value. -/
theorem highestPrepared_tests {quorum round : Nat} {justification : List QBFTMsg} {pr : Nat}
    {pv : Bytes} {valueHash : Option Bytes}
    (highest : highestPrepared (preparedValues justification) = some (pr, pv)) :
    (if ((preparedValues justification).get? (pr, pv)).getD 0 < quorum then
        (.ok false : Except PyError Bool)
      else if (roundChangesFor round justification).any fun rc =>
          0 < rc.preparedRound ∧ pr < rc.preparedRound then .ok false
      else if ¬ (roundChangesFor round justification).any fun rc =>
          rc.preparedRound = pr ∧ rc.preparedValueHash = pv then .ok false
      else .ok (decide (some pv = valueHash))) = .ok true ↔
      ∃ pr pv, SelectsPrepared quorum round justification pr pv ∧ valueHash = some pv := by
  rw [getD_preparedValues]
  have only : (∃ pr pv, SelectsPrepared quorum round justification pr pv ∧
      valueHash = some pv) ↔
      SelectsPrepared quorum round justification pr pv ∧ valueHash = some pv := by
    constructor
    · rintro ⟨pr', pv', selects, chosen⟩
      cases highest.symm.trans (highestPrepared_eq_some_iff.mpr selects.1)
      exact ⟨selects, chosen⟩
    · exact fun selected => ⟨pr, pv, selected⟩
  rw [only, SelectsPrepared, ← highestPrepared_eq_some_iff]
  split
  · rename_i short
    simp [Nat.not_le.mpr short]
  · rename_i enough
    split
    · rename_i beyond
      obtain ⟨rc, member, positive, above⟩ := by simpa using beyond
      have exceeded : ¬ ∀ rc ∈ roundChangesFor round justification, rc.preparedRound ≤ pr :=
        fun bounded => Nat.not_le.mpr above (bounded rc member)
      simp [exceeded]
    · rename_i within
      have bounded : ∀ rc ∈ roundChangesFor round justification, rc.preparedRound ≤ pr := by
        intro rc member
        by_contra above
        have later := Nat.not_le.mp above
        exact within (List.any_eq_true.mpr ⟨rc, member, by simpa using ⟨by omega, later⟩⟩)
      split
      · rename_i missing
        have unmatched : ¬ ∃ rc ∈ roundChangesFor round justification,
            rc.preparedRound = pr ∧ rc.preparedValueHash = pv := by
          simpa using missing
        simp [unmatched]
      · rename_i found
        have matched : ∃ rc ∈ roundChangesFor round justification,
            rc.preparedRound = pr ∧ rc.preparedValueHash = pv := by
          simpa using found
        simp only [highest, Nat.not_lt.mp enough, matched, and_true, true_and, Except.ok.injEq,
          decide_eq_true_eq, eq_comm (a := valueHash)]
        exact ⟨fun same => ⟨bounded, same⟩, fun both => both.2⟩

/-- A PRE-PREPARE of a later round is accepted exactly from its leader, with enough
ROUND-CHANGE messages that are all null-prepared or select its value. -/
theorem isJustifiedPrePrepare_iff :
    s.isJustifiedPrePrepare consensusMsg = .ok true ↔
      consensusMsg.msg.type = .prePrepare ∧ 0 < s.d.nodes ∧
        s.d.leader s.duty consensusMsg.msg.round = consensusMsg.msg.peerIdx ∧
        (consensusMsg.msg.round = 1 ∨
          s.d.quorum ≤
              (roundChangesFor consensusMsg.msg.round consensusMsg.justification).length ∧
            (AllNonePrepared consensusMsg.msg.round consensusMsg.justification ∨
              ∃ pr pv, SelectsPrepared s.d.quorum consensusMsg.msg.round
                consensusMsg.justification pr pv ∧ consensusMsg.msg.valueHash = some pv)) := by
  rw [← and_assoc (a := 0 < s.d.nodes), ← Definition.isLeader_eq_true_iff]
  unfold isJustifiedPrePrepare
  dsimp only
  split
  · rename_i other
    simp [other]
  · rename_i type
    rw [not_not.mp type]
    split
    · rename_i error leader
      simp [leader]
    · rename_i leader
      simp [leader]
    · rename_i leader
      simp only [leader, true_and]
      split
      · rename_i first
        simp [first]
      · rename_i later
        split
        · rename_i short
          simp [later, Nat.not_le.mpr short]
        · rename_i enough
          have noneIff : (roundChangesFor consensusMsg.msg.round consensusMsg.justification).all
              QBFTMsg.nonePrepared = true ↔
              AllNonePrepared consensusMsg.msg.round consensusMsg.justification :=
            List.all_eq_true
          split
          · rename_i none
            simp [later, Nat.not_lt.mp enough, noneIff.mp none]
          · rename_i prepared
            have notNone : ¬ AllNonePrepared consensusMsg.msg.round
                consensusMsg.justification := fun none => prepared (noneIff.mpr none)
            simp only [later, Nat.not_lt.mp enough, notNone, false_or, true_and]
            split
            · rename_i absent
              simp [SelectsPrepared, ← highestPrepared_eq_some_iff, absent]
            · rename_i pr pv highest
              exact highestPrepared_tests highest

theorem isJustified_prePrepare (type : consensusMsg.msg.type = .prePrepare) :
    s.isJustified consensusMsg = s.isJustifiedPrePrepare consensusMsg := by
  rw [isJustified, type]

theorem isJustified_roundChange (type : consensusMsg.msg.type = .roundChange) :
    s.isJustified consensusMsg = .ok (s.isJustifiedRoundChange consensusMsg) := by
  rw [isJustified, type]

theorem isJustified_decided (type : consensusMsg.msg.type = .decided) :
    s.isJustified consensusMsg = .ok (s.isJustifiedDecided consensusMsg) := by
  rw [isJustified, type]

end QBFTConsensus

end DvSpec.Consensus
