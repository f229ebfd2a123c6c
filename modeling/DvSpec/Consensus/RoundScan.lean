import DvSpec.Consensus.Crashes
import DvSpec.Library.Arrival

/-!
# The scan for F+1 round changes

The scan keeps the highest future ROUND-CHANGE of every peer, and stops with the
first message of the peer that completes the set.  A higher one of the same peers
that is buffered further on is therefore missed.
-/

namespace DvSpec.Consensus

open DvSpec.Library DvSpec.Library.Arrival

namespace QBFTConsensus

/-! ## Collecting without an end -/

/-- Keep a message unless its peer has a higher one. -/
def keepHighest (found : Dict Nat QBFTMsg) (m : QBFTMsg) : Dict Nat QBFTMsg :=
  if (found.get? m.peerIdx).any fun previous => m.round < previous.round then found
  else found.set m.peerIdx m

/-- The highest of some messages for every peer. -/
def collectHighest (messages : List QBFTMsg) : Dict Nat QBFTMsg :=
  messages.foldl keepHighest Dict.empty

theorem collectHighest_concat (messages : List QBFTMsg) (m : QBFTMsg) :
    collectHighest (messages ++ [m]) = keepHighest (collectHighest messages) m := by
  rw [collectHighest, List.foldl_append]
  rfl

theorem keys_keepHighest (found : Dict Nat QBFTMsg) (m : QBFTMsg) :
    (keepHighest found m).keys = arrive found.keys m.peerIdx := by
  unfold keepHighest arrive
  split
  · rename_i higher
    obtain ⟨previous, stored, -⟩ := (Option.any_eq_true _ _).mp higher
    rw [if_pos ((Dict.mem_keys_iff _ _).mpr ⟨previous, stored⟩)]
  · exact Dict.keys_set _ _ _

/-- The peers are collected in the order of their first messages. -/
theorem keys_collectHighest (messages : List QBFTMsg) :
    (collectHighest messages).keys = arrivals (messages.map QBFTMsg.peerIdx) := by
  induction messages using List.reverseRecOn with
  | nil => rfl
  | append_singleton messages m ih =>
      rw [collectHighest_concat, keys_keepHighest, ih, List.map_append, List.map_singleton,
        arrivals_concat]

theorem size_collectHighest (messages : List QBFTMsg) :
    (collectHighest messages).size = (arrivals (messages.map QBFTMsg.peerIdx)).length := by
  rw [← keys_collectHighest, Dict.keys, List.length_map, Dict.size]

/-- What is stored for a peer is the message itself, if no higher one was stored, or what was
stored before, if the message is not a higher one of the peer. -/
theorem get?_keepHighest {found : Dict Nat QBFTMsg} {m kept : QBFTMsg} {peer : Nat}
    (stored : (keepHighest found m).get? peer = some kept) :
    (kept = m ∧ m.peerIdx = peer ∧
      ∀ previous, found.get? peer = some previous → previous.round ≤ m.round) ∨
      found.get? peer = some kept ∧ (m.peerIdx = peer → m.round ≤ kept.round) := by
  unfold keepHighest at stored
  split at stored
  · rename_i higher
    obtain ⟨previous, known, above⟩ := (Option.any_eq_true _ _).mp higher
    refine Or.inr ⟨stored, fun own => ?_⟩
    rw [own, stored] at known
    cases known
    exact Nat.le_of_lt (of_decide_eq_true above)
  · rename_i notHigher
    rw [Dict.get?_set] at stored
    split at stored
    · rename_i same
      cases stored
      refine Or.inl ⟨rfl, same.symm, fun previous known => Nat.not_lt.mp fun above => ?_⟩
      exact notHigher ((Option.any_eq_true _ _).mpr ⟨previous, same ▸ known, decide_eq_true above⟩)
    · rename_i other
      exact Or.inr ⟨stored, fun own => absurd own.symm other⟩

/-- A collected message is a highest one of its peer. -/
theorem get?_collectHighest {messages : List QBFTMsg} {peer : Nat} {m : QBFTMsg}
    (stored : (collectHighest messages).get? peer = some m) :
    m ∈ messages ∧ m.peerIdx = peer ∧ ∀ j ∈ messages, j.peerIdx = peer → j.round ≤ m.round := by
  induction messages using List.reverseRecOn generalizing m with
  | nil => cases stored
  | append_singleton messages last ih =>
      rw [collectHighest_concat] at stored
      rcases get?_keepHighest stored with ⟨rfl, own, above⟩ | ⟨old, below⟩
      · refine ⟨List.mem_append_right _ (List.mem_singleton.mpr rfl), own, fun j among same => ?_⟩
        rcases List.mem_append.mp among with earlier | here
        · have arrived : peer ∈ (collectHighest messages).keys := by
            rw [keys_collectHighest, mem_arrivals, ← same]
            exact List.mem_map_of_mem earlier
          obtain ⟨previous, known⟩ := (Dict.mem_keys_iff _ _).mp arrived
          exact Nat.le_trans ((ih known).2.2 j earlier same) (above previous known)
        · rw [List.mem_singleton.mp here]
      · obtain ⟨member, own, highest⟩ := ih old
        refine ⟨List.mem_append_left _ member, own, fun j among same => ?_⟩
        rcases List.mem_append.mp among with earlier | here
        · exact highest j earlier same
        · rw [List.mem_singleton.mp here] at same ⊢
          exact below same

theorem mem_values_collectHighest {messages : List QBFTMsg} {m : QBFTMsg}
    (member : m ∈ (collectHighest messages).values) :
    m ∈ messages ∧ ∀ j ∈ messages, j.peerIdx = m.peerIdx → j.round ≤ m.round := by
  obtain ⟨peer, stored⟩ := (Dict.mem_values_iff _ _).mp member
  obtain ⟨among, rfl, highest⟩ := get?_collectHighest stored
  exact ⟨among, highest⟩

/-- Every peer among the messages is represented. -/
theorem exists_mem_values_collectHighest {messages : List QBFTMsg} {peer : Nat}
    (present : peer ∈ messages.map QBFTMsg.peerIdx) :
    ∃ m ∈ (collectHighest messages).values, m.peerIdx = peer := by
  rw [← mem_arrivals, ← keys_collectHighest] at present
  obtain ⟨m, stored⟩ := (Dict.mem_keys_iff _ _).mp present
  exact ⟨m, (Dict.mem_values_iff _ _).mpr ⟨peer, stored⟩, (get?_collectHighest stored).2.1⟩

/-! ## Where the scan stops -/

/-- The ROUND-CHANGE messages beyond a round. -/
def changesBeyond (current : Nat) (messages : List QBFTMsg) : List QBFTMsg :=
  messages.filter fun j => j.type = .roundChange ∧ current < j.round

theorem mem_changesBeyond {current : Nat} {messages : List QBFTMsg} {j : QBFTMsg} :
    j ∈ changesBeyond current messages ↔
      j ∈ messages ∧ j.type = .roundChange ∧ current < j.round := by
  rw [changesBeyond, List.mem_filter, decide_eq_true_iff]

/-- Other messages are passed over. -/
theorem highestBySource_changesBeyond (current : Nat) (limit : Int) (messages : List QBFTMsg)
    (found : Dict Nat QBFTMsg) :
    highestBySource current limit messages found =
      highestBySource current limit (changesBeyond current messages) found := by
  induction messages generalizing found with
  | nil => rfl
  | cons m rest ih =>
      by_cases future : m.type = .roundChange ∧ current < m.round
      · have kept : changesBeyond current (m :: rest) = m :: changesBeyond current rest :=
          List.filter_cons_of_pos (decide_eq_true future)
        rw [kept, highestBySource, highestBySource]
        simp only [ih]
      · have dropped : changesBeyond current (m :: rest) = changesBeyond current rest :=
          List.filter_cons_of_neg fun here => future (of_decide_eq_true here)
        rw [dropped, ← ih, highestBySource]
        split
        · rfl
        · rename_i change
          rw [if_pos (Nat.not_lt.mp fun later => future ⟨not_not.mp change, later⟩)]

/-- One step of the scan: it keeps the message, and stops if the set became complete. -/
theorem highestBySource_cons {current : Nat} {limit : Int} {m : QBFTMsg} {rest : List QBFTMsg}
    (future : m.type = .roundChange ∧ current < m.round) (found : Dict Nat QBFTMsg) :
    highestBySource current limit (m :: rest) found =
      if ((found.get? m.peerIdx).any fun previous => m.round < previous.round) = false ∧
          ((keepHighest found m).size : Int) = limit then keepHighest found m
      else highestBySource current limit rest (keepHighest found m) := by
  rw [highestBySource, if_neg (not_not_intro future.1), if_neg (Nat.not_le.mpr future.2),
    keepHighest]
  cases (found.get? m.peerIdx).any fun previous => m.round < previous.round <;> simp

/-- While peers are missing the scan goes on. -/
theorem highestBySource_cons_of_ne {current : Nat} {limit : Int} {m : QBFTMsg}
    {rest : List QBFTMsg} (future : m.type = .roundChange ∧ current < m.round)
    {found : Dict Nat QBFTMsg} (incomplete : ((keepHighest found m).size : Int) ≠ limit) :
    highestBySource current limit (m :: rest) found =
      highestBySource current limit rest (keepHighest found m) := by
  rw [highestBySource_cons future, if_neg fun stops => incomplete stops.2]

/-- A message completes the set: it is the first of its peer, and one peer was missing. -/
structure Completes (limit : Int) (before : List QBFTMsg) (last : QBFTMsg) : Prop where
  first : last.peerIdx ∉ before.map QBFTMsg.peerIdx
  missing : ((arrivals (before.map QBFTMsg.peerIdx)).length : Int) + 1 = limit

theorem size_collectHighest_append_le (first second : List QBFTMsg) :
    (collectHighest first).size ≤ (collectHighest (first ++ second)).size := by
  induction second using List.reverseRecOn with
  | nil => rw [List.append_nil]
  | append_singleton second m ih =>
      have grows : (collectHighest (first ++ second)).keys.length ≤
          (arrive (collectHighest (first ++ second)).keys m.peerIdx).length := by
        unfold arrive
        split
        · exact Nat.le_refl _
        · rw [List.length_append]
          exact Nat.le_add_right _ _
      rw [← keys_keepHighest, Dict.keys, Dict.keys, List.length_map, List.length_map] at grows
      rw [← List.append_assoc, collectHighest_concat]
      exact Nat.le_trans ih grows

/-- The scan stops with the message that completes the set. -/
theorem highestBySource_of_completes {current : Nat} {limit : Int} {before after : List QBFTMsg}
    {last : QBFTMsg} (done : List QBFTMsg)
    (future : ∀ j ∈ before ++ last :: after, j.type = .roundChange ∧ current < j.round)
    (completes : Completes limit (done ++ before) last) :
    highestBySource current limit (before ++ last :: after) (collectHighest done) =
      collectHighest (done ++ before ++ [last]) := by
  induction before generalizing done with
  | nil =>
      rw [List.append_nil] at completes
      have absent : (collectHighest done).get? last.peerIdx = none := by
        cases stored : (collectHighest done).get? last.peerIdx with
        | none => rfl
        | some m =>
            obtain ⟨member, own, -⟩ := get?_collectHighest stored
            exact absurd (own ▸ List.mem_map_of_mem member) completes.first
      have complete : ((keepHighest (collectHighest done) last).size : Int) = limit := by
        rw [← collectHighest_concat, size_collectHighest, List.map_append, List.map_singleton,
          arrivals_concat_of_notMem completes.first, List.length_append, ← completes.missing]
        rfl
      rw [List.nil_append, highestBySource_cons (future last List.mem_cons_self),
        if_pos ⟨by rw [absent]; rfl, complete⟩, List.append_nil, collectHighest_concat]
  | cons m rest ih =>
      have incomplete : ((keepHighest (collectHighest done) m).size : Int) ≠ limit := by
        have fewer := size_collectHighest_append_le (done ++ [m]) rest
        have missing := completes.missing
        rw [List.append_assoc, List.singleton_append, size_collectHighest (done ++ m :: rest)] at fewer
        rw [← collectHighest_concat]
        omega
      have moved : done ++ m :: rest = done ++ [m] ++ rest := by
        rw [List.append_assoc, List.singleton_append]
      rw [List.cons_append, highestBySource_cons_of_ne (future m List.mem_cons_self) incomplete,
        ← collectHighest_concat, moved]
      exact ih (done ++ [m]) (fun j member => future j (List.mem_cons_of_mem _ member))
        (moved ▸ completes)

/-- Without a message that completes the set everything is collected. -/
theorem highestBySource_of_not_completes {current : Nat} {limit : Int} {messages : List QBFTMsg}
    (done : List QBFTMsg)
    (future : ∀ j ∈ messages, j.type = .roundChange ∧ current < j.round)
    (short : 0 < limit → ((collectHighest done).size : Int) < limit)
    (never : ∀ before last after, messages = before ++ last :: after →
      ¬ Completes limit (done ++ before) last) :
    highestBySource current limit messages (collectHighest done) =
      collectHighest (done ++ messages) := by
  induction messages generalizing done with
  | nil => rw [List.append_nil]; rfl
  | cons m rest ih =>
      have moved : done ++ m :: rest = done ++ [m] ++ rest := by
        rw [List.append_assoc, List.singleton_append]
      have later : 0 < limit → ((collectHighest (done ++ [m])).size : Int) < limit := by
        intro positive
        have below := short positive
        have here := never [] m rest rfl
        rw [List.append_nil] at here
        rw [size_collectHighest] at below
        rw [size_collectHighest, List.map_append, List.map_singleton]
        by_cases known : m.peerIdx ∈ done.map QBFTMsg.peerIdx
        · rw [arrivals_concat_of_mem known]
          exact below
        · have missing : ((arrivals (done.map QBFTMsg.peerIdx)).length : Int) + 1 ≠ limit :=
            fun equal => here ⟨known, equal⟩
          rw [arrivals_concat_of_notMem known, List.length_append, List.length_singleton]
          omega
      have incomplete : ((keepHighest (collectHighest done) m).size : Int) ≠ limit := by
        rw [← collectHighest_concat]
        by_cases positive : 0 < limit
        · exact Int.ne_of_lt (later positive)
        · have some_peer : 0 < (collectHighest (done ++ [m])).size := by
            obtain ⟨kept, member, -⟩ := exists_mem_values_collectHighest
              (List.mem_map_of_mem (f := QBFTMsg.peerIdx)
                (List.mem_append_right done (List.mem_singleton.mpr (rfl : m = m))))
            rw [← Dict.length_values]
            exact List.length_pos_of_mem member
          omega
      rw [highestBySource_cons_of_ne (future m List.mem_cons_self) incomplete,
        ← collectHighest_concat, moved]
      refine ih (done ++ [m]) (fun j member => future j (List.mem_cons_of_mem _ member)) later ?_
      intro before last after split completes
      refine never (m :: before) last after (by rw [split, List.cons_append]) ?_
      rwa [List.append_assoc, List.singleton_append] at completes

/-! ## Highest rounds -/

/-- Each returned message has the highest round among the future ROUND-CHANGEs of its peer. -/
def HighestRounds (s : QBFTConsensus) (returned : List QBFTMsg) : Prop :=
  ∀ m ∈ returned, ∀ j ∈ s.allMsg, j.type = .roundChange → s.round < j.round →
    j.peerIdx = m.peerIdx → j.round ≤ m.round

/-- Among the future ROUND-CHANGEs of the flattened buffer, none that follows the message
with which the peers become one more than may be faulty raises the round of one of these
peers. -/
def NoneRaisedLater (s : QBFTConsensus) : Prop :=
  ∀ before last after, changesBeyond s.round s.allMsg = before ++ last :: after →
    Completes (s.d.faulty + 1) before last → ∀ j ∈ after,
      j.peerIdx ∈ (before ++ [last]).map QBFTMsg.peerIdx →
        ∃ i ∈ before ++ [last], i.peerIdx = j.peerIdx ∧ j.round ≤ i.round

/-- What the scan returns, by whether a message completes the set. -/
theorem highestBySource_allMsg (s : QBFTConsensus) :
    (∃ before last after, changesBeyond s.round s.allMsg = before ++ last :: after ∧
        Completes (s.d.faulty + 1) before last ∧
        highestBySource s.round (s.d.faulty + 1) s.allMsg Dict.empty =
          collectHighest (before ++ [last])) ∨
      (∀ before last after, changesBeyond s.round s.allMsg = before ++ last :: after →
        ¬ Completes (s.d.faulty + 1) before last) ∧
        highestBySource s.round (s.d.faulty + 1) s.allMsg Dict.empty =
          collectHighest (changesBeyond s.round s.allMsg) := by
  have future : ∀ j ∈ changesBeyond s.round s.allMsg, j.type = .roundChange ∧ s.round < j.round :=
    fun j member => (mem_changesBeyond.mp member).2
  rw [highestBySource_changesBeyond]
  by_cases stops : ∃ before last after,
      changesBeyond s.round s.allMsg = before ++ last :: after ∧
        Completes (s.d.faulty + 1) before last
  · obtain ⟨before, last, after, split, completes⟩ := stops
    refine Or.inl ⟨before, last, after, split, completes, ?_⟩
    rw [split] at future ⊢
    exact highestBySource_of_completes [] future completes
  · have never : ∀ before last after, changesBeyond s.round s.allMsg = before ++ last :: after →
        ¬ Completes (s.d.faulty + 1) before last :=
      fun before last after split completes => stops ⟨before, last, after, split, completes⟩
    exact Or.inr ⟨never, highestBySource_of_not_completes [] future id never⟩

/-- The returned messages are highest exactly when no round is raised later. -/
theorem highestRounds_iff (s : QBFTConsensus) :
    s.HighestRounds (highestBySource s.round (s.d.faulty + 1) s.allMsg Dict.empty).values ↔
      s.NoneRaisedLater := by
  rcases highestBySource_allMsg s with ⟨before, last, after, split, completes, scanned⟩ |
    ⟨never, scanned⟩
  · have among : ∀ j, j ∈ s.allMsg ∧ j.type = .roundChange ∧ s.round < j.round ↔
        j ∈ before ++ [last] ∨ j ∈ after := by
      intro j
      rw [← mem_changesBeyond, split, List.append_cons, List.mem_append]
    rw [scanned]
    constructor
    · intro highest before' last' after' split' completes' j inAfter present
      -- the scan stops with the given message as well
      have same : collectHighest (before' ++ [last']) = collectHighest (before ++ [last]) := by
        have future : ∀ j ∈ before' ++ last' :: after',
            j.type = .roundChange ∧ s.round < j.round :=
          fun j member => (mem_changesBeyond.mp (split' ▸ member)).2
        rw [← scanned, highestBySource_changesBeyond, split']
        exact (highestBySource_of_completes [] future completes').symm
      obtain ⟨m, kept, own⟩ := exists_mem_values_collectHighest present
      have buffered : j ∈ changesBeyond s.round s.allMsg := by
        rw [split']
        exact List.mem_append_right _ (List.mem_cons_of_mem _ inAfter)
      obtain ⟨inBuffer, change, later⟩ := mem_changesBeyond.mp buffered
      have below := highest m (same ▸ kept) j inBuffer change later own.symm
      exact ⟨m, (mem_values_collectHighest kept).1, own, below⟩
    · intro none m kept j inBuffer change later own
      obtain ⟨member, highest⟩ := mem_values_collectHighest kept
      rcases (among j).mp ⟨inBuffer, change, later⟩ with scannedOver | missed
      · exact highest j scannedOver own
      · obtain ⟨i, earlier, same, above⟩ := none before last after split completes j missed
          (own ▸ List.mem_map_of_mem member)
        exact Nat.le_trans above (highest i earlier (same.trans own))
  · rw [scanned]
    refine iff_of_true ?_ fun before last after split completes =>
      absurd completes (never before last after split)
    intro m kept j inBuffer change later own
    exact (mem_values_collectHighest kept).2 j (mem_changesBeyond.mpr ⟨inBuffer, change, later⟩) own

/-- Enough peers with a future ROUND-CHANGE make the classification return their messages. -/
theorem classify_highestBySource {s : QBFTConsensus} {consensusMsg : QBFTConsensusMsg}
    (type : consensusMsg.msg.type = .roundChange) (future : s.round < consensusMsg.msg.round)
    (enough : s.d.faulty + 1 ≤
      ((highestBySource s.round (s.d.faulty + 1) s.allMsg Dict.empty).size : Int)) :
    s.classify consensusMsg = .ok (.fPlus1RoundChanges,
      (highestBySource s.round (s.d.faulty + 1) s.allMsg Dict.empty).values) := by
  simp [classify, classifyRoundChange, type, future, Nat.not_lt.mpr (Nat.le_of_lt future),
    Int.not_lt.mpr enough]

variable [Crypto]

/-- An accepted message for which the classification finds F+1 future ROUND-CHANGEs. -/
structure FindsChanges (s : QBFTConsensus) (consensusMsg : QBFTConsensusMsg)
    (returned : List QBFTMsg) : Prop extends Accepts s consensusMsg where
  classify : (s.received consensusMsg).classify consensusMsg = .ok (.fPlus1RoundChanges, returned)

/-- Along every run, the classification returns highest rounds exactly when no step meets a
buffer in which a round is raised after the scan. -/
theorem run_highestRounds_iff (d : Definition) (t : Transport) (duty : Duty) (peer : Nat)
    (proposalValue : Bytes) (events : List Event) :
    Machine.Along step
        (fun s event => ∀ consensusMsg, event = .receive consensusMsg → ∀ returned,
          s.FindsChanges consensusMsg returned → (s.received consensusMsg).HighestRounds returned)
        (new d t duty peer proposalValue) events ↔
      Machine.Along step
        (fun s event => ∀ consensusMsg, event = .receive consensusMsg →
          (∃ returned, s.FindsChanges consensusMsg returned) →
            (s.received consensusMsg).NoneRaisedLater)
        (new d t duty peer proposalValue) events := by
  have returns : ∀ (s : QBFTConsensus) consensusMsg returned,
      s.FindsChanges consensusMsg returned →
        ((s.received consensusMsg).HighestRounds returned ↔
          (s.received consensusMsg).NoneRaisedLater) := by
    intro s consensusMsg returned finds
    obtain ⟨-, -, chosen, -⟩ :=
      classified_of_classify (by exact UponRule.noConfusion) finds.classify
    rw [chosen]
    exact highestRounds_iff _
  refine Machine.along_congr (I := fun _ => True) (fun _ _ _ => trivial) ?_ trivial
  intro s event _
  constructor
  · rintro highest consensusMsg received ⟨returned, finds⟩
    exact (returns s consensusMsg returned finds).mp (highest consensusMsg received returned finds)
  · intro none consensusMsg received returned finds
    exact (returns s consensusMsg returned finds).mpr (none consensusMsg received ⟨returned, finds⟩)

open FourPeers in
omit [Crypto] in
/-- Peer 0 was heard of first.  Peer 2 asks for the second and then for the third round, and
when peer 0 asks for the second one, the scan stops with the first message of peer 2. -/
theorem laterRound_missed :
    letI := constantCrypto
    ¬ Machine.Along step
      (fun s event => ∀ consensusMsg, event = .receive consensusMsg → ∀ returned,
        s.FindsChanges consensusMsg returned → (s.received consensusMsg).HighestRounds returned)
      (new definition transport attesterDuty 1 [7])
      [receive (ownVote .prepare 0), receive (changeTo 2 2), receive (changeTo 2 3 (by decide)),
        receive (changeTo 0 2)] := by
  let _ := constantCrypto
  intro along
  have last := along.tail.tail.tail.head { msg := changeTo 0 2 } rfl _
    ⟨⟨by decide, rfl, rfl, rfl⟩, classify_highestBySource rfl (by decide) (by decide +kernel)⟩
  exact absurd (last (changeTo 2 2) (by decide +kernel) (changeTo 2 3 (by decide))
    (by decide +kernel) rfl (by decide) rfl) (by decide)

end QBFTConsensus

end DvSpec.Consensus
