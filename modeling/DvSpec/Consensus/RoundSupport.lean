import DvSpec.Consensus.LostDecision
import DvSpec.Consensus.RoundScan

/-!
# The support of a round change

An instance that follows the ROUND-CHANGEs of others moves to the smallest round
of the set which the scan returns.  Every member of the set asks for that round or
a later one, so more peers than may be faulty support the new round.
-/

namespace DvSpec.Consensus

open DvSpec.Library DvSpec.Library.Arrival

namespace QBFTConsensus

/-! ## The peers of the scan -/

/-- The collected messages have as many senders as there are messages. -/
theorem size_le_card_senders (messages : List QBFTMsg) :
    (collectHighest messages).size ≤ (senders (collectHighest messages).values).card := by
  rw [size_collectHighest,
    ← List.toFinset_card_of_nodup (nodup_arrivals (messages.map QBFTMsg.peerIdx))]
  refine Finset.card_le_card fun peer present => ?_
  rw [List.mem_toFinset, mem_arrivals] at present
  obtain ⟨m, kept, own⟩ := exists_mem_values_collectHighest present
  exact mem_senders.mpr ⟨m, kept, own⟩

/-- The scan returns the collected messages of some of the future ROUND-CHANGEs. -/
theorem highestBySource_eq_collectHighest (s : QBFTConsensus) :
    ∃ messages, (changesBeyond s.round s.allMsg ≠ [] → messages ≠ []) ∧
      highestBySource s.round (s.d.faulty + 1) s.allMsg Dict.empty = collectHighest messages := by
  rcases highestBySource_allMsg s with ⟨before, last, after, -, -, scanned⟩ | ⟨-, scanned⟩
  · exact ⟨before ++ [last], fun _ => List.concat_ne_nil _ _, scanned⟩
  · exact ⟨changesBeyond s.round s.allMsg, id, scanned⟩

theorem card_senders_highestBySource (s : QBFTConsensus) :
    (highestBySource s.round (s.d.faulty + 1) s.allMsg Dict.empty).values.length ≤
      (senders (highestBySource s.round (s.d.faulty + 1) s.allMsg Dict.empty).values).card := by
  obtain ⟨messages, -, scanned⟩ := highestBySource_eq_collectHighest s
  rw [scanned, Dict.length_values]
  exact size_le_card_senders messages

theorem values_highestBySource_ne_nil {s : QBFTConsensus} {m : QBFTMsg}
    (future : m ∈ changesBeyond s.round s.allMsg) :
    (highestBySource s.round (s.d.faulty + 1) s.allMsg Dict.empty).values ≠ [] := by
  obtain ⟨messages, nonempty, scanned⟩ := highestBySource_eq_collectHighest s
  obtain ⟨first, member⟩ :=
    List.exists_mem_of_ne_nil _ (nonempty (List.ne_nil_of_mem future))
  obtain ⟨kept, inside, -⟩ :=
    exists_mem_values_collectHighest (List.mem_map_of_mem (f := QBFTMsg.peerIdx) member)
  rw [scanned]
  exact List.ne_nil_of_mem inside

end QBFTConsensus

/-! ## The checks of the rule -/

/-- The texts with which the F_PLUS_1_ROUND_CHANGES rule refuses its set. -/
def frcErrors : List String :=
  ["Frc too short", "Frc contain non-round change", "Frc round not in future"]

namespace Transport

variable [Crypto] {t : Transport} {duty : Duty} {peerIdx roundNum : Nat}
  {preparedRound : Option Nat} {preparedValueHash : Option Bytes} {text : String}

theorem sign_error {message privateKey : Bytes}
    (failed : sign message privateKey = .error (.valueError text)) : text ∉ frcErrors := by
  have differs : ∀ (rest : String), "secret must be 32 bytes, got " ++ rest ∉ frcErrors ∧
      "hash must be 32 bytes, got " ++ rest ∉ frcErrors := by
    intro rest
    simp [frcErrors, String.ext_iff]
  unfold sign at failed
  split at failed
  · cases failed
    simpa [toString, String.append_assoc] using (differs _).1
  · split at failed
    · cases failed
      simpa [toString, String.append_assoc] using (differs _).2
    · cases failed

/-- A round change that cannot be broadcast fails with an error of its own. -/
theorem broadcastRoundChange_error {preparedJustification : List QBFTMsg}
    (failed : t.broadcastRoundChange duty peerIdx roundNum preparedRound preparedValueHash
      preparedJustification = .error (.valueError text)) : text ∉ frcErrors := by
  unfold broadcastRoundChange forEachPeer at failed
  split at failed
  · cases failed
  · rename_i error copied
    cases failed
    unfold signedMessage at copied
    split at copied
    · rename_i error built
      cases copied
      unfold QBFTMsg.construct at built
      split at built <;> cases built
    · split at copied
      · rename_i error signed
        cases copied
        unfold signMessage at signed
        split at signed
        · cases signed
          decide
        · exact sign_error signed
      · cases copied
  · cases failed

end Transport

/-! ## Moving forward -/

namespace QBFTConsensus

/-- A later state in a round for which more peers than may be faulty have asked. -/
structure MovesWithSupport (s moved : QBFTConsensus) : Prop where
  later : s.round < moved.round
  asked : ∃ j ∈ moved.allMsg, j.type = .roundChange ∧ j.round = moved.round
  support : s.d.faulty + 1 ≤
    (senders (moved.allMsg.filter fun j => j.type = .roundChange ∧ moved.round ≤ j.round)).card
  honest : ∀ byzantine : Finset Nat, byzantine.card ≤ s.d.faulty →
    ∃ j ∈ moved.allMsg, j.type = .roundChange ∧ moved.round ≤ j.round ∧ j.peerIdx ∉ byzantine

/-- More supporters than faulty peers include one that is not faulty. -/
theorem exists_honest_of_support {messages : List QBFTMsg} {round : Nat} {faulty : Int}
    (support : faulty + 1 ≤
      (senders (messages.filter fun j => j.type = .roundChange ∧ round ≤ j.round)).card)
    {byzantine : Finset Nat} (few : byzantine.card ≤ faulty) :
    ∃ j ∈ messages, j.type = .roundChange ∧ round ≤ j.round ∧ j.peerIdx ∉ byzantine := by
  have more : byzantine.card <
      (senders (messages.filter fun j => j.type = .roundChange ∧ round ≤ j.round)).card := by
    omega
  obtain ⟨peer, supports, honest⟩ := Finset.exists_mem_notMem_of_card_lt_card more
  obtain ⟨j, member, own⟩ := mem_senders.mp supports
  obtain ⟨buffered, reason⟩ := List.mem_filter.mp member
  obtain ⟨change, above⟩ := of_decide_eq_true reason
  exact ⟨j, buffered, change, above, own ▸ honest⟩

variable [Crypto] {s : QBFTConsensus} {consensusMsg : QBFTConsensusMsg}

/-- The future ROUND-CHANGEs of a triggered rule are enough and have a least round. -/
theorem Triggers.futureChanges (triggers : s.Triggers consensusMsg .fPlus1RoundChanges) :
    ∃ r, consensusMsg.msg.type = .roundChange ∧ s.round < consensusMsg.msg.round ∧
      s.d.faulty + 1 ≤ ((s.futureChanges consensusMsg).length : Int) ∧
      LeastRound r (s.futureChanges consensusMsg) := by
  obtain ⟨justification, classified⟩ := triggers.classify
  obtain ⟨type, future, chosen, enough⟩ := classified_of_classify (by decide) classified
  rw [d_received, chosen] at enough
  have buffered : consensusMsg.msg ∈ (s.received consensusMsg).allMsg :=
    mem_allMsg_bufferMessage.mpr (Or.inr List.mem_cons_self)
  have nonempty : s.futureChanges consensusMsg ≠ [] :=
    @values_highestBySource_ne_nil (s.received consensusMsg) _
      (mem_changesBeyond.mpr ⟨buffered, type, future⟩)
  have allFuture : ∀ j ∈ s.futureChanges consensusMsg, j.type = .roundChange ∧ s.round < j.round :=
    fun j member => mem_futureChanges member
  obtain ⟨r, smallest⟩ := smallestRound_returns _ allFuture (Or.inl nonempty)
  exact ⟨r, type, future, enough, (smallestRound_eq_iff allFuture).mp smallest⟩

/-- The F_PLUS_1_ROUND_CHANGES rule raises none of its own errors and moves forward with
support. -/
theorem handleMessage_movesWithSupport (triggers : s.Triggers consensusMsg .fPlus1RoundChanges) :
    (∀ text ∈ frcErrors, (s.handleMessage consensusMsg).1 ≠ .error (.valueError text)) ∧
      s.MovesWithSupport (s.handleMessage consensusMsg).2 := by
  obtain ⟨r, type, future, enough, least⟩ := triggers.futureChanges
  have moves : s.Moves consensusMsg r :=
    .jumped triggers.toAccepts type future triggers.fresh enough least
  have arrives := moves.arrives.1
  have among : ∀ j ∈ s.futureChanges consensusMsg,
      j ∈ (s.handleMessage consensusMsg).2.allMsg ∧ j.type = .roundChange := by
    intro j member
    rw [allMsg_handleMessage triggers.toAccepts]
    exact ⟨(mem_values_highestBySource member).1, (mem_futureChanges member).1⟩
  have support : s.d.faulty + 1 ≤
      (senders ((s.handleMessage consensusMsg).2.allMsg.filter fun j =>
        j.type = .roundChange ∧ (s.handleMessage consensusMsg).2.round ≤ j.round)).card := by
    have distinct : (s.futureChanges consensusMsg).length ≤
        (senders (s.futureChanges consensusMsg)).card :=
      card_senders_highestBySource (s.received consensusMsg)
    refine enough.trans (Int.ofNat_le.mpr (distinct.trans (Finset.card_le_card ?_)))
    refine voters_mono QBFTMsg.peerIdx fun j member => ?_
    have above := least.least j member
    rw [← arrives] at above
    exact List.mem_filter.mpr ⟨(among j member).1, decide_eq_true ⟨(among j member).2, above⟩⟩
  constructor
  · intro text own failed
    have smallest := (smallestRound_eq_iff fun j member => mem_futureChanges member).mpr least
    rw [handleMessage_of_classify triggers.toAccepts (classify_futureChanges type future enough)
        (by decide) triggers.fresh, uponRule, uponFPlus1, d_marked,
      if_neg (Int.not_lt.mpr enough), round_marked, smallest] at failed
    exact Transport.broadcastRoundChange_error failed own
  · constructor
    · rw [arrives]
      exact moves.later
    · obtain ⟨j, member, reached⟩ := least.reached
      exact ⟨j, (among j member).1, (among j member).2, reached.trans arrives.symm⟩
    · exact support
    · exact fun byzantine few => exists_honest_of_support support few

open FourPeers in
omit [Crypto] in
/-- Peer 1 follows peers 0 and 2 to the second round. -/
theorem handleMessage_movesWithSupport_two :
    letI := constantCrypto
    let s := Machine.final step (new definition transport attesterDuty 1 [7]) [receive (changeTo 0 2)]
    s.MovesWithSupport (s.handleMessage { msg := changeTo 2 2 }).2 := by
  let _ := constantCrypto
  intro s
  have classified := @classify_highestBySource (s.received { msg := changeTo 2 2 })
    { msg := changeTo 2 2 } rfl (by decide) (by decide +kernel)
  exact (handleMessage_movesWithSupport
    ⟨⟨by decide, rfl, rfl, rfl⟩, ⟨_, classified⟩, by decide +kernel⟩).2

end QBFTConsensus

end DvSpec.Consensus
