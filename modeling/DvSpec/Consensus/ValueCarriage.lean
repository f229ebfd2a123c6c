import DvSpec.Consensus.Emission

/-!
# The values that sent messages carry

A broadcast attaches the value of the one hash it is for.  The other hashes that its
justification references are left without their values, although the transport may
have learned these from received messages.
-/

namespace DvSpec.Consensus

open DvSpec.Library

variable [Crypto]

/-- A vote references a hash by its value or by its prepared value. -/
def References (j : QBFTMsg) (hash : Bytes) : Prop :=
  j.valueHash = some hash ∨ j.preparedValueHash = hash

namespace Transport

/-- Every stored value is found under its own hash. -/
def ValuesHashed (t : Transport) : Prop :=
  ∀ hash value, t.getValue hash = some value → hashValue value = hash

/-- The values of a message are those behind the hashes that its votes reference: all that the
transport knows are attached, and no others are. -/
structure Conveys (t : Transport) (copy : QBFTConsensusMsg) : Prop where
  attached : ∀ j ∈ QBFTConsensus.votes copy, ∀ hash, References j hash → hash ≠ zeroHash →
    ∀ value, t.getValue hash = some value → value ∈ copy.values
  referenced : ∀ value ∈ copy.values, ∃ j ∈ QBFTConsensus.votes copy,
    References j (hashValue value)

/-- Every non-zero hash that a justification references and that the transport knows is the
hash the broadcast is for. -/
def Covers (t : Transport) (hash : Option Bytes) (justification : List QBFTMsg) : Prop :=
  ∀ j ∈ justification, ∀ known, References j known → known ≠ zeroHash →
    t.getValue known ≠ none → hash = some known

variable {t : Transport}

/-! ## Stored values -/

theorem ValuesHashed.setValues {mapping : List (Bytes × Bytes)} (hashed : t.ValuesHashed)
    (own : ∀ entry ∈ mapping, hashValue entry.2 = entry.1) :
    (t.setValues mapping).ValuesHashed := by
  induction mapping generalizing t with
  | nil => exact hashed
  | cons entry rest ih =>
      obtain ⟨here, later⟩ := List.forall_mem_cons.mp own
      refine @ih { t with values := t.values.set entry.1 entry.2 } (fun hash value found => ?_) later
      rw [getValue, Dict.get?_set] at found
      split at found
      · rename_i same
        cases found
        exact here.trans same.symm
      · exact hashed hash value found

theorem ValuesHashed.mem_knownValue_iff (hashed : t.ValuesHashed) {hash : Option Bytes}
    {value : Bytes} :
    value ∈ t.knownValue hash ↔ hash = some (hashValue value) ∧
      t.getValue (hashValue value) = some value := by
  have sized := length_hashValue value
  unfold knownValue
  cases hash with
  | none => simp
  | some known =>
      dsimp only
      split
      · rename_i empty
        simp only [List.not_mem_nil, Option.some.injEq, false_iff]
        rintro ⟨same, -⟩
        rw [← same, empty] at sized
        cases sized
      · rw [Option.mem_toList, Option.some.injEq]
        constructor
        · intro found
          have same := hashed known value found
          rw [same]
          exact ⟨rfl, found⟩
        · rintro ⟨rfl, found⟩
          exact found

end Transport

namespace QBFTConsensus

variable {s : QBFTConsensus} {consensusMsg copy : QBFTConsensusMsg}

/-- An instance stores values under their hashes only. -/
theorem valuesHashed_storeValues (hashed : s.t.ValuesHashed) (values : List Bytes) :
    (s.storeValues values).t.ValuesHashed := by
  refine hashed.setValues fun entry member => ?_
  obtain ⟨value, -, rfl⟩ := List.mem_map.mp member
  rfl

theorem valuesHashed_new {t : Transport} (hashed : t.ValuesHashed) (d : Definition) (duty : Duty)
    (peer : Nat) (proposalValue : Bytes) : (new d t duty peer proposalValue).t.ValuesHashed :=
  hashed.setValues (List.forall_mem_singleton.mpr rfl)

/-- No event changes the transport but by storing values. -/
theorem Effect.transport {event : Event} {outcome : Outcome} (effect : s.Effect event outcome) :
    outcome.2.t = s.t ∨ ∃ values, outcome.2.t = (s.storeValues values).t := by
  cases effect with
  | idle _ _ values => exact Or.inr ⟨values, rfl⟩
  | resent => exact Or.inr ⟨_, rfl⟩
  | kept => exact Or.inr ⟨_, rfl⟩
  | noted => exact Or.inr ⟨_, rfl⟩
  | prePrepared => exact Or.inr ⟨_, by rw [t_changeRound, t_marked]⟩
  | prepared => exact Or.inr ⟨_, rfl⟩
  | committed => exact Or.inr ⟨_, rfl⟩
  | adopted => exact Or.inr ⟨_, by rw [t_changeRound, t_marked]⟩
  | jumped => exact Or.inr ⟨_, by rw [t_changeRound, t_marked]⟩
  | proposed => exact Or.inr ⟨_, rfl⟩
  | timedOut => exact Or.inl (t_changeRound s _)

theorem valuesHashed_step (hashed : s.t.ValuesHashed) (event : Event) :
    (s.step event).2.t.ValuesHashed := by
  rcases (s.step_effect event).transport with same | ⟨values, stored⟩
  · rw [same]
    exact hashed
  · rw [stored]
    exact valuesHashed_storeValues hashed values

/-! ## Sent messages -/

/-- Whatever is sent refers to the values known after the message was stored. -/
theorem t_handleMessage_of_sent (sent : outgoing (s.handleMessage consensusMsg).1 ≠ []) :
    (s.handleMessage consensusMsg).2.t = (s.storeValues consensusMsg.values).t := by
  have effect := s.handleMessage_effect consensusMsg
  generalize s.handleMessage consensusMsg = outcome at effect sent
  cases effect with
  | idle _ silent => exact absurd silent sent
  | resent => rfl
  | kept => rfl
  | noted => rfl
  | prePrepared => rw [t_changeRound, t_marked]
  | prepared => rfl
  | committed => rfl
  | adopted => rw [t_changeRound, t_marked]
  | jumped => rw [t_changeRound, t_marked]
  | proposed => rfl

/-- A broadcast references the hash it is for in its own message, and otherwise the zero hash. -/
theorem Emitted.references_iff {msgType : MsgType} {hash : Option Bytes}
    {justification : List QBFTMsg}
    (emitted : s.Emitted consensusMsg msgType hash justification copy) {known : Bytes}
    (nonzero : known ≠ zeroHash) : References copy.msg known ↔ hash = some known := by
  unfold References
  rw [emitted.valueHash, emitted.preparedValueHash]
  by_cases change : msgType = .roundChange
  · rw [if_pos change, if_pos change]
    cases hash with
    | none => simpa using nonzero.symm
    | some own => simp
  · rw [if_neg change, if_neg change]
    simp [nonzero.symm]

theorem Emitted.references_self {msgType : MsgType} {known : Bytes}
    {justification : List QBFTMsg}
    (emitted : s.Emitted consensusMsg msgType (some known) justification copy) :
    References copy.msg known := by
  unfold References
  rw [emitted.valueHash, emitted.preparedValueHash]
  by_cases change : msgType = .roundChange
  · rw [if_pos change, if_pos change]
    exact Or.inr rfl
  · rw [if_neg change]
    exact Or.inl rfl

/-- A sent message carries its values exactly when its justification is covered by the hash
that the broadcast is for. -/
theorem conveys_iff_covers (hashed : (s.storeValues consensusMsg.values).t.ValuesHashed)
    {msgType : MsgType} {hash : Option Bytes} {justification : List QBFTMsg}
    (emitted : s.Emitted consensusMsg msgType hash justification copy) :
    (s.storeValues consensusMsg.values).t.Conveys copy ↔
      (s.storeValues consensusMsg.values).t.Covers hash justification := by
  constructor
  · intro conveys j member known references nonzero found
    obtain ⟨value, stored⟩ := Option.ne_none_iff_exists'.mp found
    have vote : j ∈ votes copy := by
      rw [votes, emitted.justification]
      exact List.mem_cons_of_mem _ member
    have attached := conveys.attached j vote known references nonzero value stored
    rw [emitted.values, hashed.mem_knownValue_iff] at attached
    rw [attached.1, hashed known value stored]
  · intro covers
    constructor
    · intro j vote known references nonzero value stored
      have same : hash = some known := by
        rcases List.mem_cons.mp vote with rfl | member
        · exact (emitted.references_iff nonzero).mp references
        · rw [emitted.justification] at member
          exact covers j member known references nonzero (by rw [stored]; exact Option.some_ne_none _)
      rw [emitted.values, hashed.mem_knownValue_iff, hashed known value stored]
      exact ⟨same, stored⟩
    · intro value attached
      rw [emitted.values, hashed.mem_knownValue_iff] at attached
      have own := emitted
      rw [attached.1] at own
      exact ⟨copy.msg, List.mem_cons_self, own.references_self⟩

/-- A handled message leaves every stored value under its hash, and what it is answered with
carries the values that it references and the transport knows, and no others. -/
structure CarriesValues (s : QBFTConsensus) (consensusMsg : QBFTConsensusMsg) : Prop where
  hashed : (s.handleMessage consensusMsg).2.t.ValuesHashed
  conveyed : ∀ copy ∈ outgoing (s.handleMessage consensusMsg).1,
    (s.handleMessage consensusMsg).2.t.Conveys copy

theorem carriesValues_iff (steady : s.Steady) (hashed : s.t.ValuesHashed) :
    s.CarriesValues consensusMsg ↔
      (s.t.CanSend → ∀ msgType hash justification,
        s.Emits consensusMsg msgType hash justification →
          (s.storeValues consensusMsg.values).t.Covers hash justification) := by
  have stored := valuesHashed_storeValues hashed consensusMsg.values
  rw [← forall_sent_iff steady fun _ _ _ _ _ emitted => conveys_iff_covers stored emitted]
  constructor
  · intro carries copy member
    rw [← t_handleMessage_of_sent (List.ne_nil_of_mem member)]
    exact carries.conveyed copy member
  · intro conveys
    refine ⟨valuesHashed_step hashed (.receive consensusMsg), fun copy member => ?_⟩
    rw [t_handleMessage_of_sent (List.ne_nil_of_mem member)]
    exact conveys copy member

/-- In every run of an instance whose transport starts with values under their hashes, all
messages are answered with the values they reference exactly when every known hash that a
broadcast justification references is the hash of the broadcast. -/
theorem run_carriesValues_iff {d : Definition} (nodes : 0 < d.nodes) {t : Transport}
    (hashed : t.ValuesHashed) (duty : Duty) (peer : Nat) (proposalValue : Bytes)
    (events : List Event) :
    Machine.Along step
        (fun s event => ∀ consensusMsg, event = .receive consensusMsg →
          s.CarriesValues consensusMsg)
        (new d t duty peer proposalValue) events ↔
      Machine.Along step
        (fun s event => ∀ consensusMsg, event = .receive consensusMsg → s.t.CanSend →
          ∀ msgType hash justification, s.Emits consensusMsg msgType hash justification →
            (s.storeValues consensusMsg.values).t.Covers hash justification)
        (new d t duty peer proposalValue) events := by
  refine Machine.along_congr (I := fun s : QBFTConsensus => s.Steady ∧ s.t.ValuesHashed)
    (fun _ event both => ⟨both.1.step event, valuesHashed_step both.2 event⟩) ?_
    ⟨steady_new nodes t duty peer proposalValue, valuesHashed_new hashed d duty peer proposalValue⟩
  exact fun _ _ both => forall_congr' fun _ => imp_congr_right fun _ =>
    carriesValues_iff both.1 both.2

open FourPeers in
omit [Crypto] in
/-- Peer 2 handles the PRE-PREPARE of the first leader and votes for a value it then carries. -/
theorem run_carriesValues_vote :
    letI := constantCrypto
    Machine.Along step
      (fun s event => ∀ consensusMsg, event = .receive consensusMsg →
        s.CarriesValues consensusMsg)
      (new definition transport attesterDuty 2 [7])
      [.receive { msg := ownVote .prePrepare 0, values := [[7]] }] := by
  let _ := constantCrypto
  have empty : transport.ValuesHashed := fun _ _ found => by cases found
  refine (run_carriesValues_iff (by decide) empty attesterDuty 2 [7] _).mpr ?_
  refine Machine.along_cons.mpr ⟨?_, Machine.along_nil⟩
  rintro _ ⟨⟩ - msgType hash justification emits
  cases emits with
  | prepare => exact List.forall_mem_nil _
  | commit => exact List.forall_mem_nil _
  | decided decided => exact absurd rfl decided.ne_nil
  | roundChange triggers =>
      obtain ⟨_, result⟩ := triggers.classify
      cases (classified_of_classify (by decide) result).1
  | prePrepare _ result => cases (classified_of_classify (by decide) result).1

/-! ## A justification with two prepared values -/

/-- A message without values conveys no known hash. -/
theorem not_conveys_of_missing {t : Transport} {j : QBFTMsg} {hash value : Bytes}
    (inside : j ∈ copy.justification) (references : References j hash) (nonzero : hash ≠ zeroHash)
    (known : t.getValue hash = some value) (none : copy.values = []) : ¬ t.Conveys copy := by
  intro conveys
  have attached := conveys.attached j (List.mem_cons_of_mem _ inside) hash references nonzero
    value known
  rw [none] at attached
  cases attached

/-- A ROUND-CHANGE for the third round with the PREPAREs of three peers. -/
def thirdChange (peerIdx : Nat) (prepared : QBFTMsg) (bounded : prepared.round ≤ 3)
    (valueHash : Bytes) (sized : valueHash.length = 32) : QBFTConsensusMsg where
  msg :=
    { FourPeers.changeTo peerIdx 3 (by decide) with
      preparedRound := prepared.round
      preparedValueHash := valueHash
      preparedRound_le := bounded
      length_preparedValueHash := sized }
  justification := [0, 1, 3].map fun sender => { prepared with peerIdx := sender }

open FourPeers in
/-- The leader of the third round, to which peer 0 reports the leader's own proposal as prepared
in the first round, and peer 1 another value as prepared in the second. -/
def thirdLeader : QBFTConsensus :=
  letI := constantCrypto
  Machine.final step (new definition transport attesterDuty 2 [7])
    [.receive (thirdChange 0 (ownVote .prepare 0) (by decide) proposalHash rfl),
      .receive (thirdChange 1 (vote .prepare 0 2 9) (by decide) (valueHash 9) rfl)]

/-- The answer of the third leader to the ROUND-CHANGE of a peer that prepared nothing. -/
def thirdAnswer : Outcome :=
  letI := constantCrypto
  thirdLeader.handleMessage { msg := FourPeers.changeTo 3 3 (by decide) }

omit [Crypto] in
/-- The third leader knows its own proposal and sends a PRE-PREPARE that references it without
the value. -/
theorem thirdLeader_not_carriesValues :
    (∃ copy ∈ outgoing thirdAnswer.1,
        (∃ j ∈ copy.justification, j.preparedValueHash = FourPeers.proposalHash) ∧
          copy.values = []) ∧
      thirdAnswer.2.t.getValue FourPeers.proposalHash = some [7] ∧
      ¬ @CarriesValues constantCrypto thirdLeader
        { msg := FourPeers.changeTo 3 3 (by decide) } := by
  have sent : ∃ copy ∈ outgoing thirdAnswer.1,
      (∃ j ∈ copy.justification, j.preparedValueHash = FourPeers.proposalHash) ∧
        copy.values = [] := by decide +kernel
  have known : thirdAnswer.2.t.getValue FourPeers.proposalHash = some [7] := by decide +kernel
  refine ⟨sent, known, fun carries => ?_⟩
  obtain ⟨copy, member, ⟨j, inside, reported⟩, values⟩ := sent
  exact @not_conveys_of_missing constantCrypto copy _ j _ [7] inside (Or.inr reported)
    (by decide) known values (@CarriesValues.conveyed constantCrypto _ _ carries copy member)

end QBFTConsensus

end DvSpec.Consensus
