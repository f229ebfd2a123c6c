import DvSpec.Consensus.Protocol

/-!
# What the selections return

Each loop over a list of messages is described once: which messages it keeps,
how it counts them and which senders stand behind the result.
-/

namespace DvSpec.Consensus

open DvSpec.Library

theorem mem_votesFor {type : MsgType} {round : Nat} {valueHash : Option Bytes}
    {messages : List QBFTMsg} {j : QBFTMsg} :
    j ∈ votesFor type round valueHash messages ↔
      j ∈ messages ∧ j.type = type ∧ j.round = round ∧ j.valueHash = valueHash := by
  simp [votesFor]

theorem mem_roundChangesFor {round : Nat} {messages : List QBFTMsg} {j : QBFTMsg} :
    j ∈ roundChangesFor round messages ↔
      j ∈ messages ∧ j.type = .roundChange ∧ j.round = round := by
  simp [roundChangesFor]

theorem votesFor_eq_self {type : MsgType} {round : Nat} {valueHash : Option Bytes}
    {messages : List QBFTMsg}
    (only : ∀ j ∈ messages, j.type = type ∧ j.round = round ∧ j.valueHash = valueHash) :
    votesFor type round valueHash messages = messages :=
  List.filter_eq_self.mpr fun j member => by simpa using only j member

theorem roundChangesFor_eq_self {round : Nat} {messages : List QBFTMsg}
    (only : ∀ rc ∈ messages, rc.type = .roundChange ∧ rc.round = round) :
    roundChangesFor round messages = messages :=
  List.filter_eq_self.mpr fun rc member => by simpa using only rc member

/-- The null-prepared ROUND-CHANGE messages of a round. -/
def nullChangesFor (round : Nat) (messages : List QBFTMsg) : List QBFTMsg :=
  (roundChangesFor round messages).filter QBFTMsg.nonePrepared

theorem mem_nullChangesFor {round : Nat} {messages : List QBFTMsg} {rc : QBFTMsg} :
    rc ∈ nullChangesFor round messages ↔
      rc ∈ messages ∧ rc.type = .roundChange ∧ rc.round = round ∧ rc.nonePrepared = true := by
  rw [nullChangesFor, List.mem_filter, mem_roundChangesFor]
  tauto

theorem roundChangesFor_nullChangesFor (round : Nat) (messages : List QBFTMsg) :
    roundChangesFor round (nullChangesFor round messages) = nullChangesFor round messages :=
  roundChangesFor_eq_self fun _ member =>
    ⟨(mem_nullChangesFor.mp member).2.1, (mem_nullChangesFor.mp member).2.2.1⟩

theorem QBFTMsg.nonePrepared_iff {rc : QBFTMsg} :
    rc.nonePrepared = true ↔ rc.preparedRound = 0 ∧ rc.preparedValueHash = zeroHash := by
  simp [QBFTMsg.nonePrepared]

/-! ## Counting PREPAREs -/

theorem getD_foldl_countPrepare (messages : List QBFTMsg) (counts : Dict (Nat × Bytes) Nat)
    (round : Nat) (valueHash : Bytes) :
    ((messages.foldl countPrepare counts).get? (round, valueHash)).getD 0 =
      (counts.get? (round, valueHash)).getD 0 +
        (votesFor .prepare round (some valueHash) messages).length := by
  induction messages generalizing counts with
  | nil => simp [votesFor]
  | cons rc rest ih =>
      rw [List.foldl_cons, ih]
      by_cases prepare : rc.type = .prepare
      · cases hashed : rc.valueHash with
        | none => simp [countPrepare, votesFor, prepare, hashed]
        | some hash =>
            by_cases same : rc.round = round ∧ hash = valueHash
            · obtain ⟨rfl, rfl⟩ := same
              simp [countPrepare, votesFor, prepare, hashed]
              omega
            · have apart : ¬ ((round, valueHash) = (rc.round, hash)) := by
                intro equal
                cases equal
                exact same ⟨rfl, rfl⟩
              simp [countPrepare, votesFor, prepare, hashed, Dict.get?_set, apart, same]
      · simp [countPrepare, votesFor, prepare]

/-- The count stored under a key is the number of PREPAREs for it. -/
theorem getD_preparedValues (messages : List QBFTMsg) (round : Nat) (valueHash : Bytes) :
    ((preparedValues messages).get? (round, valueHash)).getD 0 =
      (votesFor .prepare round (some valueHash) messages).length := by
  simpa [preparedValues] using getD_foldl_countPrepare messages Dict.empty round valueHash

theorem mem_keys_foldl_countPrepare (messages : List QBFTMsg) (counts : Dict (Nat × Bytes) Nat)
    (key : Nat × Bytes) :
    key ∈ (messages.foldl countPrepare counts).keys ↔
      key ∈ counts.keys ∨
        ∃ j ∈ messages, j.type = .prepare ∧ j.round = key.1 ∧ j.valueHash = some key.2 := by
  induction messages generalizing counts with
  | nil => simp
  | cons rc rest ih =>
      rw [List.foldl_cons, ih]
      by_cases prepare : rc.type = .prepare
      · cases hashed : rc.valueHash with
        | none => simp [countPrepare, prepare, hashed]
        | some hash =>
            have sameKey : key = (rc.round, hash) ↔ rc.round = key.1 ∧ hash = key.2 := by
              rw [Prod.ext_iff]
              exact and_congr eq_comm eq_comm
            simp [countPrepare, prepare, hashed, Dict.mem_keys_set, sameKey, or_assoc,
              or_left_comm]
      · simp [countPrepare, prepare]

theorem mem_keys_preparedValues {messages : List QBFTMsg} {key : Nat × Bytes} :
    key ∈ (preparedValues messages).keys ↔
      ∃ j ∈ messages, j.type = .prepare ∧ j.round = key.1 ∧ j.valueHash = some key.2 := by
  rw [preparedValues, mem_keys_foldl_countPrepare]
  simp [Dict.keys, Dict.empty]

/-- The key under which a message is counted, if it is a PREPARE for a value. -/
def prepareKey (j : QBFTMsg) : Option (Nat × Bytes) :=
  if j.type = .prepare then j.valueHash.map fun valueHash => (j.round, valueHash) else none

theorem countPrepare_eq (counts : Dict (Nat × Bytes) Nat) (j : QBFTMsg) :
    countPrepare counts j =
      match prepareKey j with
      | none => counts
      | some key => counts.set key ((counts.get? key).getD 0 + 1) := by
  unfold countPrepare prepareKey
  by_cases prepare : j.type = .prepare
  · cases j.valueHash <;> simp [prepare]
  · simp [prepare]

/-- Counting under each key once does not change which key is the first highest one. -/
theorem highestPrepared_eq_argmax (messages : List QBFTMsg) :
    highestPrepared (preparedValues messages) =
      (messages.filterMap prepareKey).argmax Prod.fst := by
  unfold highestPrepared preparedValues
  induction messages using List.reverseRecOn with
  | nil => rfl
  | append_singleton messages j ih =>
      rw [List.foldl_append, List.foldl_cons, List.foldl_nil, countPrepare_eq,
        List.filterMap_append]
      cases keyed : prepareKey j with
      | none => simpa [keyed] using ih
      | some key =>
          have last : [j].filterMap prepareKey = [key] := by simp [keyed]
          simp only [last, List.argmax_concat, ← ih, Dict.keys_set]
          split
          · rename_i present
            cases highest : (messages.foldl countPrepare Dict.empty).keys.argmax Prod.fst with
            | none =>
                rw [List.argmax_eq_none.mp highest] at present
                cases present
            | some best =>
                have bounded := List.le_of_mem_argmax present highest
                simp [Nat.not_lt.mpr bounded]
          · rw [List.argmax_concat]

/-- The first PREPARE of the highest round is for this round and value. -/
def FirstHighest (messages : List QBFTMsg) (pr : Nat) (pv : Bytes) : Prop :=
  (messages.filterMap prepareKey).argmax Prod.fst = some (pr, pv)

theorem highestPrepared_eq_some_iff {messages : List QBFTMsg} {pr : Nat} {pv : Bytes} :
    highestPrepared (preparedValues messages) = some (pr, pv) ↔ FirstHighest messages pr pv := by
  rw [highestPrepared_eq_argmax, FirstHighest]

/-- Without PREPAREs that carry a value hash there is no highest prepared key. -/
theorem highestPrepared_eq_none_iff {messages : List QBFTMsg} :
    highestPrepared (preparedValues messages) = none ↔
      ∀ j ∈ messages, j.type = .prepare → j.valueHash = none := by
  rw [highestPrepared, List.argmax_eq_none, List.eq_nil_iff_forall_not_mem]
  constructor
  · intro empty j member type
    cases hashed : j.valueHash with
    | none => rfl
    | some valueHash =>
        exact absurd (mem_keys_preparedValues.mpr ⟨j, member, type, rfl, hashed⟩)
          (empty (j.round, valueHash))
  · intro unprepared key member
    obtain ⟨j, present, type, -, hashed⟩ := mem_keys_preparedValues.mp member
    rw [unprepared j present type] at hashed
    cases hashed

/-- PREPAREs for a single key make it the highest one. -/
theorem highestPrepared_eq_some {messages : List QBFTMsg} {pr : Nat} {pv : Bytes}
    (some : ∃ j ∈ messages, j.type = .prepare)
    (only : ∀ j ∈ messages, j.type = .prepare → j.round = pr ∧ j.valueHash = .some pv) :
    highestPrepared (preparedValues messages) = .some (pr, pv) := by
  have unique : ∀ key ∈ (preparedValues messages).keys, key = (pr, pv) := by
    intro key member
    obtain ⟨j, present, prepare, round, hash⟩ := mem_keys_preparedValues.mp member
    obtain ⟨round', hash'⟩ := only j present prepare
    rw [round'] at round
    rw [hash', Option.some.injEq] at hash
    exact Prod.ext round.symm hash.symm
  cases found : highestPrepared (preparedValues messages) with
  | none =>
      obtain ⟨j, present, prepare⟩ := some
      obtain ⟨round, hash⟩ := only j present prepare
      have member : (pr, pv) ∈ (preparedValues messages).keys :=
        mem_keys_preparedValues.mpr ⟨j, present, prepare, round, hash⟩
      rw [highestPrepared, List.argmax_eq_none] at found
      rw [found] at member
      cases member
  | some key => exact congrArg Option.some (unique key (List.argmax_mem found))

/-! ## Future ROUND-CHANGE messages by source -/

namespace QBFTConsensus

/-- The scan only ever stores future ROUND-CHANGE messages of the list, under their sender. -/
theorem get?_highestBySource {current : Nat} {limit : Int} (messages : List QBFTMsg)
    (found : Dict Nat QBFTMsg) {among : List QBFTMsg} (included : messages ⊆ among)
    (initially : ∀ peer m, found.get? peer = some m →
      m ∈ among ∧ m.type = .roundChange ∧ current < m.round ∧ m.peerIdx = peer)
    {peer : Nat} {m : QBFTMsg}
    (stored : (highestBySource current limit messages found).get? peer = some m) :
    m ∈ among ∧ m.type = .roundChange ∧ current < m.round ∧ m.peerIdx = peer := by
  induction messages generalizing found with
  | nil => exact initially peer m stored
  | cons first rest ih =>
      have tail : rest ⊆ among := fun _ member => included (List.mem_cons_of_mem _ member)
      unfold highestBySource at stored
      split at stored
      · exact ih found tail initially stored
      · rename_i change
        split at stored
        · exact ih found tail initially stored
        · rename_i future
          split at stored
          · exact ih found tail initially stored
          · have updated : ∀ peer m, (found.set first.peerIdx first).get? peer = some m →
                m ∈ among ∧ m.type = .roundChange ∧ current < m.round ∧ m.peerIdx = peer := by
              intro peer m entry
              rw [Dict.get?_set] at entry
              split at entry
              · rename_i same
                cases entry
                exact ⟨included List.mem_cons_self, not_not.mp change, Nat.not_le.mp future,
                  same.symm⟩
              · exact initially peer m entry
            dsimp only at stored
            split at stored
            · exact updated peer m stored
            · exact ih _ tail updated stored

theorem mem_values_highestBySource {current : Nat} {limit : Int} {messages : List QBFTMsg}
    {m : QBFTMsg}
    (member : m ∈ (highestBySource current limit messages Dict.empty).values) :
    m ∈ messages ∧ m.type = .roundChange ∧ current < m.round := by
  obtain ⟨peer, stored⟩ := (Dict.mem_values_iff _ _).mp member
  have found := get?_highestBySource messages Dict.empty (List.Subset.refl _)
    (fun _ _ absent => by cases absent) stored
  exact ⟨found.1, found.2.1, found.2.2.1⟩

/-! ## PREPAREs by source -/

/-- Every filed PREPARE sits under its round, value hash and sender. -/
theorem get?_foldl_filePrepare (messages : List QBFTMsg)
    (sets : Dict (Nat × Bytes) (Dict Nat QBFTMsg)) {among : List QBFTMsg}
    (included : messages ⊆ among)
    (initially : ∀ key set peer m, sets.get? key = some set → set.get? peer = some m →
      m ∈ votesFor .prepare key.1 (some key.2) among ∧ m.peerIdx = peer)
    {key : Nat × Bytes} {set : Dict Nat QBFTMsg} {peer : Nat} {m : QBFTMsg}
    (filed : (messages.foldl filePrepare sets).get? key = some set)
    (stored : set.get? peer = some m) :
    m ∈ votesFor .prepare key.1 (some key.2) among ∧ m.peerIdx = peer := by
  induction messages generalizing sets with
  | nil => exact initially key set peer m filed stored
  | cons first rest ih =>
      refine ih (filePrepare sets first)
        (fun _ member => included (List.mem_cons_of_mem _ member)) ?_ filed
      intro key set peer m filed stored
      unfold filePrepare at filed
      split at filed
      · exact initially key set peer m filed stored
      · rename_i prepare
        split at filed
        · exact initially key set peer m filed stored
        · rename_i hash hashed
          dsimp only at filed
          rw [Dict.get?_set] at filed
          split at filed
          · rename_i same
            cases filed
            rw [Dict.get?_set] at stored
            split at stored
            · rename_i own
              cases stored
              subst same
              exact ⟨mem_votesFor.mpr ⟨included List.mem_cons_self, not_not.mp prepare, rfl,
                hashed⟩, own.symm⟩
            · subst same
              cases previous : sets.get? (first.round, hash) with
              | none =>
                  rw [previous] at stored
                  cases stored
              | some old =>
                  rw [previous] at stored
                  exact initially _ old peer m previous stored
          · exact initially key set peer m filed stored

/-- A prepare set holds PREPAREs for its key, one per sender. -/
theorem prepareSets_spec {messages : List QBFTMsg} {key : Nat × Bytes} {set : Dict Nat QBFTMsg}
    (filed : (prepareSets messages).get? key = some set) :
    (∀ m ∈ set.values, m ∈ votesFor .prepare key.1 (some key.2) messages) ∧
      set.values.map QBFTMsg.peerIdx = set.keys := by
  have entries : ∀ peer m, set.get? peer = some m →
      m ∈ votesFor .prepare key.1 (some key.2) messages ∧ m.peerIdx = peer := by
    intro peer m stored
    exact get?_foldl_filePrepare messages Dict.empty (List.Subset.refl _)
      (fun _ _ _ _ absent => by cases absent) filed stored
  refine ⟨?_, ?_⟩
  · intro m member
    obtain ⟨peer, stored⟩ := (Dict.mem_values_iff _ _).mp member
    exact (entries peer m stored).1
  · rw [Dict.values, Dict.keys, List.map_map]
    apply List.map_congr_left
    rintro ⟨peer, m⟩ member
    exact (entries peer m ((Dict.mem_entries_iff _ _ _).mp member)).2

/-! ## Justified quorums of ROUND-CHANGE messages -/

theorem qrcCandidates_spec (pr : Nat) (pv : Option Bytes) (qrc : List QBFTMsg)
    (used : List Nat) :
    (∀ rc ∈ (qrcCandidates pr pv qrc used).1,
        rc ∈ qrc ∧ rc.preparedRound ≤ pr ∧ rc.peerIdx ∉ used) ∧
      ((qrcCandidates pr pv qrc used).1.map QBFTMsg.peerIdx).Nodup ∧
      ((qrcCandidates pr pv qrc used).2 = true → ∃ rc ∈ (qrcCandidates pr pv qrc used).1,
        rc.preparedRound = pr ∧ some rc.preparedValueHash = pv) := by
  induction qrc generalizing used with
  | nil => simp [qrcCandidates]
  | cons rc rest ih =>
      have skip : ∀ {candidates : List QBFTMsg × Bool},
          candidates = qrcCandidates pr pv rest used →
          (∀ rc' ∈ candidates.1,
            rc' ∈ rc :: rest ∧ rc'.preparedRound ≤ pr ∧ rc'.peerIdx ∉ used) ∧
          (candidates.1.map QBFTMsg.peerIdx).Nodup ∧
          (candidates.2 = true → ∃ rc' ∈ candidates.1,
            rc'.preparedRound = pr ∧ some rc'.preparedValueHash = pv) := by
        rintro _ rfl
        obtain ⟨kept, distinct, highest⟩ := ih used
        refine ⟨?_, distinct, highest⟩
        intro rc' member
        obtain ⟨among, bounded, fresh⟩ := kept rc' member
        exact ⟨List.mem_cons_of_mem _ among, bounded, fresh⟩
      unfold qrcCandidates
      split
      · exact skip rfl
      · rename_i low
        split
        · exact skip rfl
        · rename_i unused
          obtain ⟨kept, distinct, highest⟩ := ih (rc.peerIdx :: used)
          refine ⟨?_, ?_, ?_⟩
          · intro rc' member
            rcases List.mem_cons.mp member with rfl | later
            · exact ⟨List.mem_cons_self, by omega, unused⟩
            · obtain ⟨among, bounded, fresh⟩ := kept rc' later
              exact ⟨List.mem_cons_of_mem _ among, bounded,
                fun old => fresh (List.mem_cons_of_mem _ old)⟩
          · refine List.nodup_cons.mpr ⟨?_, distinct⟩
            intro repeated
            obtain ⟨rc', member, same⟩ := List.mem_map.mp repeated
            exact (kept rc' member).2.2 (same ▸ List.mem_cons_self)
          · intro flagged
            rcases Bool.or_eq_true _ _ ▸ flagged with here | later
            · exact ⟨rc, List.mem_cons_self, of_decide_eq_true here⟩
            · obtain ⟨rc', member, exactly⟩ := highest later
              exact ⟨rc', List.mem_cons_of_mem _ member, exactly⟩

/-- A quorum of ROUND-CHANGE messages justified by a prepare quorum at `pr` and `pv`. -/
structure PreparedQrc (quorum round : Nat) (messages : List QBFTMsg) (pr : Nat) (pv : Bytes)
    (changes prepares : List QBFTMsg) : Prop where
  mem_changes : ∀ rc ∈ changes,
    rc ∈ roundChangesFor round messages ∧ rc.preparedRound ≤ pr
  changes_distinct : (changes.map QBFTMsg.peerIdx).Nodup
  changes_quorum : quorum ≤ changes.length
  highest : ∃ rc ∈ changes, rc.preparedRound = pr ∧ rc.preparedValueHash = pv
  mem_prepares : ∀ m ∈ prepares, m ∈ votesFor .prepare pr (some pv) messages
  prepares_distinct : (prepares.map QBFTMsg.peerIdx).Nodup
  prepares_quorum : quorum ≤ prepares.length
  prepares_ne_nil : prepares ≠ []

theorem preparedQrc_spec {quorum round : Nat} {messages justified : List QBFTMsg}
    (sets : List (Dict Nat QBFTMsg))
    (filed : ∀ set ∈ sets, ∃ key, (prepareSets messages).get? key = some set)
    (found : preparedQrc quorum (roundChangesFor round messages) sets = some justified) :
    ∃ pr pv changes prepares, justified = changes ++ prepares ∧
      PreparedQrc quorum round messages pr pv changes prepares := by
  induction sets with
  | nil => cases found
  | cons set rest ih =>
      have later := ih fun other member => filed other (List.mem_cons_of_mem _ member)
      unfold preparedQrc at found
      split at found
      · exact later found
      · rename_i enough
        split at found
        · exact later found
        · rename_i first others values
          dsimp only at found
          split at found
          · rename_i accepted
            cases found
            obtain ⟨⟨pr, pv⟩, key⟩ := filed set List.mem_cons_self
            obtain ⟨votes, senders⟩ := prepareSets_spec key
            obtain ⟨-, -, firstRound, firstHash⟩ :=
              mem_votesFor.mp (votes first (values ▸ List.mem_cons_self))
            obtain ⟨kept, distinct, highest⟩ :=
              qrcCandidates_spec first.round first.valueHash (roundChangesFor round messages) []
            obtain ⟨rc, member, sameRound, sameHash⟩ := highest accepted.2
            refine ⟨pr, pv, _, _, rfl, ?_⟩
            constructor
            · intro rc' member'
              obtain ⟨among, bounded, -⟩ := kept rc' member'
              exact ⟨among, bounded.trans_eq firstRound⟩
            · exact distinct
            · exact accepted.1
            · refine ⟨rc, member, sameRound.trans firstRound, ?_⟩
              exact Option.some.inj (sameHash.trans firstHash)
            · exact fun m inside => votes m (values ▸ inside)
            · rw [← values, senders]
              exact set.keys_nodup
            · rw [← values, set.length_values]
              exact Nat.not_lt.mp enough
            · exact List.cons_ne_nil _ _
          · exact later found

/-- A justified quorum is either null-prepared throughout or rests on a prepare quorum. -/
theorem justifiedQrc_cases {s : QBFTConsensus} {round : Nat} {justified : List QBFTMsg}
    (found : s.justifiedQrc round = some justified) :
    (justified = nullChangesFor round s.allMsg ∧ s.d.quorum ≤ justified.length) ∨
      (nullChangesFor round s.allMsg).length < s.d.quorum ∧
        ∃ pr pv changes prepares, justified = changes ++ prepares ∧
          PreparedQrc s.d.quorum round s.allMsg pr pv changes prepares := by
  unfold justifiedQrc at found
  dsimp only at found
  split at found
  · rename_i enough
    cases found
    exact Or.inl ⟨rfl, enough⟩
  · rename_i few
    exact Or.inr ⟨Nat.not_le.mp few,
      preparedQrc_spec _ (fun set member => (Dict.mem_values_iff _ _).mp member) found⟩

end QBFTConsensus

end DvSpec.Consensus
