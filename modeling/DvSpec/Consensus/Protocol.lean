import DvSpec.Consensus.Definition
import DvSpec.Consensus.Transport
import Mathlib.Data.List.MinMax

/-!
# A QBFT consensus instance

The state of one instance for one duty and its reaction to an incoming message:
justification checks, the message buffer, the upon rules and the broadcasts they
trigger.  A call returns its answer together with the state it leaves behind,
also when it raises.
-/

namespace DvSpec.Consensus

open DvSpec.Library

/-- Maximum number of DECIDED rebroadcasts a single peer can trigger. -/
def maxDecidedResends : Nat := 16

/-- The event based rules that are triggered when messages are received. -/
inductive UponRule where
  | nothing
  | justifiedPrePrepare
  | quorumPrepares
  | quorumCommits
  | unjustQuorumRoundChanges
  | fPlus1RoundChanges
  | quorumRoundChanges
  | justifiedDecided
  | roundTimeout
  deriving DecidableEq, Repr

/-- QBFT consensus instance for a specific duty. -/
structure QBFTConsensus where
  d : Definition
  t : Transport
  duty : Duty
  peer : Nat
  proposalValue : Bytes
  round : Nat := 1
  preparedRound : Option Nat := none
  preparedValueHash : Option Bytes := none
  preparedJustification : List QBFTMsg := []
  qCommit : List QBFTMsg := []
  buffer : Dict Nat (List QBFTConsensusMsg) := Dict.empty
  dedupRules : Dict (UponRule × Nat) Bool := Dict.empty
  decidedResends : Dict Nat (Nat × Nat) := Dict.empty

/-- The answer of a call and the state it leaves behind. -/
abbrev Outcome := Except PyError (List QBFTConsensusMsg) × QBFTConsensus

/-! ## Selecting votes -/

/-- The messages of one type for one round and value. -/
def votesFor (type : MsgType) (round : Nat) (valueHash : Option Bytes)
    (messages : List QBFTMsg) : List QBFTMsg :=
  messages.filter fun j => j.type = type ∧ j.round = round ∧ j.valueHash = valueHash

/-- The ROUND-CHANGE messages for one round. -/
def roundChangesFor (round : Nat) (messages : List QBFTMsg) : List QBFTMsg :=
  messages.filter fun j => j.type = .roundChange ∧ j.round = round

/-- Whether a ROUND-CHANGE reports that nothing was prepared. -/
def QBFTMsg.nonePrepared (rc : QBFTMsg) : Bool :=
  rc.preparedRound = 0 ∧ rc.preparedValueHash = zeroHash

/-- Count one PREPARE under its round and value hash. -/
def countPrepare (counts : Dict (Nat × Bytes) Nat) (rc : QBFTMsg) : Dict (Nat × Bytes) Nat :=
  if rc.type ≠ .prepare then counts
  else match rc.valueHash with
    | none => counts
    | some valueHash =>
        let key := (rc.round, valueHash)
        counts.set key ((counts.get? key).getD 0 + 1)

/-- The number of PREPAREs for every round and value hash. -/
def preparedValues (messages : List QBFTMsg) : Dict (Nat × Bytes) Nat :=
  messages.foldl countPrepare Dict.empty

/-- `max(prepared_values.keys(), key=lambda x: x[0])`: the first key of highest round. -/
def highestPrepared (counts : Dict (Nat × Bytes) Nat) : Option (Nat × Bytes) :=
  counts.keys.argmax Prod.fst

/-! ## Construction and justification checks -/

namespace QBFTConsensus

/-- A freshly constructed instance; its transport learns the proposal value. -/
def new [Crypto] (d : Definition) (t : Transport) (duty : Duty) (peer : Nat)
    (proposalValue : Bytes) : QBFTConsensus where
  d := d
  t := t.setValues [(hashValue proposalValue, proposalValue)]
  duty := duty
  peer := peer
  proposalValue := proposalValue

/-- Returns true if the PRE-PREPARE message is justified. -/
def isJustifiedPrePrepare (s : QBFTConsensus) (consensusMsg : QBFTConsensusMsg) :
    Except PyError Bool :=
  let msg := consensusMsg.msg
  if msg.type ≠ .prePrepare then .ok false
  else match s.d.isLeader s.duty msg.round msg.peerIdx with
    | .error error => .error error
    | .ok false => .ok false
    | .ok true =>
        if msg.round = 1 then .ok true
        else
          let qrc := roundChangesFor msg.round consensusMsg.justification
          if qrc.length < s.d.quorum then .ok false
          else if qrc.all QBFTMsg.nonePrepared then .ok true
          else
            let prepared := preparedValues consensusMsg.justification
            match highestPrepared prepared with
            | none => .error (.valueError "max() iterable argument is empty")
            | some (highestPr, highestPvHash) =>
                if (prepared.get? (highestPr, highestPvHash)).getD 0 < s.d.quorum then .ok false
                else if qrc.any fun rc => 0 < rc.preparedRound ∧ highestPr < rc.preparedRound then
                  .ok false
                else if ¬ qrc.any fun rc =>
                    rc.preparedRound = highestPr ∧ rc.preparedValueHash = highestPvHash then
                  .ok false
                else .ok (decide (some highestPvHash = msg.valueHash))

/-- Returns true if the ROUND-CHANGE message's prepared round/value is justified. -/
def isJustifiedRoundChange (s : QBFTConsensus) (consensusMsg : QBFTConsensusMsg) : Bool :=
  let msg := consensusMsg.msg
  if msg.type ≠ .roundChange then false
  else if consensusMsg.justification.length = 0 ∧ msg.preparedRound = 0 ∧
      msg.preparedValueHash = zeroHash then true
  else
    let prepareJustifications :=
      votesFor .prepare msg.preparedRound (some msg.preparedValueHash) consensusMsg.justification
    if prepareJustifications.length < s.d.quorum then false else true

/-- Returns true if the DECIDED message is justified by quorum of COMMIT messages. -/
def isJustifiedDecided (s : QBFTConsensus) (consensusMsg : QBFTConsensusMsg) : Bool :=
  let msg := consensusMsg.msg
  if msg.type ≠ .decided then false
  else
    let commitJustifications :=
      votesFor .commit msg.round msg.valueHash consensusMsg.justification
    if commitJustifications.length < s.d.quorum then false else true

/-- Returns true if message is justified or if it does not need justification. -/
def isJustified (s : QBFTConsensus) (consensusMsg : QBFTConsensusMsg) : Except PyError Bool :=
  match consensusMsg.msg.type with
  | .prePrepare => s.isJustifiedPrePrepare consensusMsg
  | .prepare => .ok true
  | .commit => .ok true
  | .roundChange => .ok (s.isJustifiedRoundChange consensusMsg)
  | .decided => .ok (s.isJustifiedDecided consensusMsg)

/-! ## The message buffer -/

/-- Store message in buffer. -/
def bufferMessage (s : QBFTConsensus) (consensusMsg : QBFTConsensusMsg) : QBFTConsensus :=
  let peerIdx := consensusMsg.msg.peerIdx
  { s with
    buffer := s.buffer.set peerIdx ((s.buffer.get? peerIdx).getD [] ++ [consensusMsg]) }

/-- One buffered message followed by its justifications. -/
def unfoldMessage (consensusMsg : QBFTConsensusMsg) : List QBFTConsensusMsg :=
  consensusMsg :: consensusMsg.justification.map fun j => { msg := j }

/-- All the buffered messages and their justifications. -/
def flatten (s : QBFTConsensus) : List QBFTConsensusMsg :=
  s.buffer.values.flatMap fun msgs => msgs.flatMap unfoldMessage

/-- The QBFT messages of the flattened buffer. -/
def allMsg (s : QBFTConsensus) : List QBFTMsg := s.flatten.map QBFTConsensusMsg.msg

/-! ## Classification -/

/-- The running scan for F+1 peers with a ROUND-CHANGE beyond the current round:
peer -> highest ROUND-CHANGE message, stopping once `limit` peers are found. -/
def highestBySource (current : Nat) (limit : Int) :
    List QBFTMsg → Dict Nat QBFTMsg → Dict Nat QBFTMsg
  | [], found => found
  | m :: rest, found =>
      if m.type ≠ .roundChange then highestBySource current limit rest found
      else if m.round ≤ current then highestBySource current limit rest found
      else if (found.get? m.peerIdx).any fun previous => m.round < previous.round then
        highestBySource current limit rest found
      else
        let found := found.set m.peerIdx m
        if (found.size : Int) = limit then found else highestBySource current limit rest found

/-- File one PREPARE under its round and value hash, by sender. -/
def filePrepare (sets : Dict (Nat × Bytes) (Dict Nat QBFTMsg)) (m : QBFTMsg) :
    Dict (Nat × Bytes) (Dict Nat QBFTMsg) :=
  if m.type ≠ .prepare then sets
  else match m.valueHash with
    | none => sets
    | some valueHash =>
        let key := (m.round, valueHash)
        sets.set key (((sets.get? key).getD Dict.empty).set m.peerIdx m)

/-- All PREPAREs: (round, value hash) -> peer -> message. -/
def prepareSets (messages : List QBFTMsg) : Dict (Nat × Bytes) (Dict Nat QBFTMsg) :=
  messages.foldl filePrepare Dict.empty

/-- One ROUND-CHANGE per source that prepared nothing beyond `pr`, and whether one
of them prepared exactly `pr` and `pv`. -/
def qrcCandidates (pr : Nat) (pv : Option Bytes) :
    List QBFTMsg → List Nat → List QBFTMsg × Bool
  | [], _ => ([], false)
  | rc :: rest, usedSources =>
      if 0 < rc.preparedRound ∧ pr < rc.preparedRound then qrcCandidates pr pv rest usedSources
      else if rc.peerIdx ∈ usedSources then qrcCandidates pr pv rest usedSources
      else
        let later := qrcCandidates pr pv rest (rc.peerIdx :: usedSources)
        (rc :: later.1,
          decide (rc.preparedRound = pr ∧ some rc.preparedValueHash = pv) || later.2)

/-- The first prepare quorum for which the ROUND-CHANGE messages are justified. -/
def preparedQrc (quorum : Nat) (qrc : List QBFTMsg) :
    List (Dict Nat QBFTMsg) → Option (List QBFTMsg)
  | [] => none
  | msgsDict :: rest =>
      if msgsDict.size < quorum then preparedQrc quorum qrc rest
      else match msgsDict.values with
        | [] => preparedQrc quorum qrc rest
        | first :: others =>
            let candidates := qrcCandidates first.round first.valueHash qrc []
            if quorum ≤ candidates.1.length ∧ candidates.2 = true then
              some (candidates.1 ++ first :: others)
            else preparedQrc quorum qrc rest

/-- Justified quorum of ROUND-CHANGE messages (Algorithm 4:1). -/
def justifiedQrc (s : QBFTConsensus) (round : Nat) : Option (List QBFTMsg) :=
  let nonePreparedQrc := (roundChangesFor round s.allMsg).filter QBFTMsg.nonePrepared
  if s.d.quorum ≤ nonePreparedQrc.length then some nonePreparedQrc
  else
    preparedQrc s.d.quorum (roundChangesFor round s.allMsg) (prepareSets s.allMsg).values

/-- The rule triggered upon receipt of a ROUND-CHANGE and its justification. -/
def classifyRoundChange (s : QBFTConsensus) (msg : QBFTMsg) :
    Except PyError (UponRule × List QBFTMsg) :=
  if msg.round < s.round then .ok (.nothing, [])
  else if s.round < msg.round then
    let highest := highestBySource s.round (s.d.faulty + 1) s.allMsg Dict.empty
    if (highest.size : Int) < s.d.faulty + 1 then .ok (.nothing, [])
    else .ok (.fPlus1RoundChanges, highest.values)
  else if (roundChangesFor msg.round s.allMsg).length < s.d.quorum then .ok (.nothing, [])
  else match s.justifiedQrc msg.round with
    | none => .ok (.unjustQuorumRoundChanges, [])
    | some justified =>
        match s.d.isLeader s.duty msg.round s.peer with
        | .error error => .error error
        | .ok false => .ok (.nothing, [])
        | .ok true => .ok (.quorumRoundChanges, justified)

/-- The rule triggered upon receipt of the last message and its justification. -/
def classify (s : QBFTConsensus) (consensusMsg : QBFTConsensusMsg) :
    Except PyError (UponRule × List QBFTMsg) :=
  let msg := consensusMsg.msg
  match msg.type with
  | .decided => .ok (.justifiedDecided, consensusMsg.justification)
  | .prePrepare =>
      if msg.round < s.round then .ok (.nothing, []) else .ok (.justifiedPrePrepare, [])
  | .prepare =>
      if msg.round ≠ s.round then .ok (.nothing, [])
      else
        let prepares := votesFor .prepare msg.round msg.valueHash s.allMsg
        if s.d.quorum ≤ prepares.length then .ok (.quorumPrepares, prepares)
        else .ok (.nothing, [])
  | .commit =>
      if msg.round ≠ s.round then .ok (.nothing, [])
      else
        let commits := votesFor .commit msg.round msg.valueHash s.allMsg
        if s.d.quorum ≤ commits.length then .ok (.quorumCommits, commits)
        else .ok (.nothing, [])
  | .roundChange => s.classifyRoundChange msg

/-! ## Reacting to a message -/

/-- Change to a new round if it differs from the current one. -/
def changeRound (s : QBFTConsensus) (r : Nat) : QBFTConsensus :=
  if r = s.round then s else { s with round := r, dedupRules := Dict.empty }

/-- The smallest round of a set of future ROUND-CHANGE messages; nothing stands for
the initial infinity. -/
def smallestRound (current : Nat) : List QBFTMsg → Option Nat → Except PyError (Option Nat)
  | [], rmin => .ok rmin
  | j :: rest, rmin =>
      if j.type ≠ .roundChange then
        .error (.valueError "Frc contain non-round change")
      else if j.round ≤ current then
        .error (.valueError "Frc round not in future")
      else
        smallestRound current rest
          (match rmin with
            | none => some j.round
            | some smallest => if j.round < smallest then some j.round else rmin)

variable [Crypto]

/-- The F_PLUS_1_ROUND_CHANGES rule. -/
def uponFPlus1 (s : QBFTConsensus) (justification : List QBFTMsg) : Outcome :=
  if (justification.length : Int) < s.d.faulty + 1 then
    (.error (.valueError "Frc too short"), s)
  else match smallestRound s.round justification none with
    | .error error => (.error error, s)
    | .ok none => (.error .overflowError, s)
    | .ok (some rmin) =>
        let s := s.changeRound rmin
        (s.t.broadcastRoundChange s.duty s.peer s.round s.preparedRound s.preparedValueHash
          s.preparedJustification, s)

/-- The answer of the QUORUM_ROUND_CHANGES rule: the justified prepared value, or
the own proposal. -/
def uponQuorumRoundChanges (s : QBFTConsensus) (justification : List QBFTMsg) :
    Except PyError (List QBFTConsensusMsg) :=
  let prepared := preparedValues justification
  let ownPrePrepare := s.t.broadcastPrePrepare s.duty s.peer s.round
    (hashValue s.proposalValue) justification
  match highestPrepared prepared with
  | none => ownPrePrepare
  | some (highestPr, highestPvHash) =>
      if s.d.quorum ≤ (prepared.get? (highestPr, highestPvHash)).getD 0 then
        s.t.broadcastMessage .prePrepare s.duty s.peer s.round highestPvHash justification
      else ownPrePrepare

/-- The reaction to a triggered rule. -/
def uponRule (s : QBFTConsensus) (rule : UponRule) (msg : QBFTMsg)
    (justification : List QBFTMsg) : Outcome :=
  match rule with
  | .justifiedPrePrepare =>
      let s := s.changeRound msg.round
      match msg.valueHash with
      | none => (.ok [], s)
      | some valueHash =>
          (s.t.broadcastMessage .prepare s.duty s.peer s.round valueHash, s)
  | .quorumPrepares =>
      let s := { s with
        preparedRound := some msg.round
        preparedValueHash := msg.valueHash
        preparedJustification := justification }
      match msg.valueHash with
      | none => (.ok [], s)
      | some valueHash =>
          (s.t.broadcastMessage .commit s.duty s.peer s.round valueHash, s)
  | .quorumCommits => (.ok [], { s.changeRound msg.round with qCommit := justification })
  | .justifiedDecided => (.ok [], { s.changeRound msg.round with qCommit := justification })
  | .fPlus1RoundChanges => s.uponFPlus1 justification
  | .quorumRoundChanges => (s.uponQuorumRoundChanges justification, s)
  | .unjustQuorumRoundChanges => (.ok [], s)
  | .nothing => (.error (.valueError "Unknown upon rule"), s)
  | .roundTimeout => (.error (.valueError "Unknown upon rule"), s)

/-- Report whether a post-decision ROUND-CHANGE may trigger a DECIDED rebroadcast,
recording it when permitted. -/
def allowDecidedResend (s : QBFTConsensus) (peerIdx msgRound : Nat) : Bool × QBFTConsensus :=
  let (highestRound, count) := (s.decidedResends.get? peerIdx).getD (0, 0)
  if msgRound ≤ highestRound ∨ maxDecidedResends ≤ count then (false, s)
  else (true, { s with decidedResends := s.decidedResends.set peerIdx (msgRound, count + 1) })

/-- The reaction of an instance that already decided. -/
def answerDecided (s : QBFTConsensus) (msg : QBFTMsg) (firstCommit : QBFTMsg) : Outcome :=
  if msg.peerIdx ≠ s.peer ∧ msg.type = .roundChange then
    match s.allowDecidedResend msg.peerIdx msg.round with
    | (false, s) => (.ok [], s)
    | (true, s) =>
        match firstCommit.valueHash with
        | none => (.ok [], s)
        | some valueHash =>
            (s.t.broadcastMessage .decided s.duty s.peer s.round valueHash s.qCommit, s)
  else (.ok [], s)

/-- Store the value mappings of a message in the transport. -/
def storeValues (s : QBFTConsensus) (values : List Bytes) : QBFTConsensus :=
  { s with t := s.t.setValues (values.map fun value => (hashValue value, value)) }

/-- Buffer and classify a justified message and react to a rule that was not
triggered in this round before. -/
def react (s : QBFTConsensus) (consensusMsg : QBFTConsensusMsg) : Outcome :=
  let s := s.bufferMessage consensusMsg
  match s.classify consensusMsg with
  | .error error => (.error error, s)
  | .ok (rule, justification) =>
      if rule = .nothing then (.ok [], s)
      else if s.dedupRules.contains (rule, s.round) then (.ok [], s)
      else
        uponRule { s with dedupRules := s.dedupRules.set (rule, s.round) true } rule
          consensusMsg.msg justification

/-- Handle an incoming QBFT consensus message using upon rules. -/
def handleMessage (s : QBFTConsensus) (consensusMsg : QBFTConsensusMsg) : Outcome :=
  match verifyMsgLimits consensusMsg s.d.nodes with
  | .error error => (.error error, s)
  | .ok () =>
      let s := s.storeValues consensusMsg.values
      if consensusMsg.msg.duty ≠ s.duty then (.ok [], s)
      else match s.qCommit with
        | firstCommit :: _ => s.answerDecided consensusMsg.msg firstCommit
        | [] =>
            match s.isJustified consensusMsg with
            | .error error => (.error error, s)
            | .ok false => (.ok [], s)
            | .ok true => s.react consensusMsg

/-! ## Runs -/

/-- A round timeout of the caller: an undecided instance moves to the next round and
announces it. -/
def timeout (s : QBFTConsensus) : Outcome :=
  match s.qCommit with
  | _ :: _ => (.ok [], s)
  | [] =>
      let s := s.changeRound (s.round + 1)
      (s.t.broadcastRoundChange s.duty s.peer s.round s.preparedRound s.preparedValueHash
        s.preparedJustification, s)

/-- What can happen to an instance. -/
inductive Event where
  | receive (consensusMsg : QBFTConsensusMsg)
  | timeout

/-- One event in the life of an instance. -/
def step (s : QBFTConsensus) : Event → Outcome
  | .receive consensusMsg => s.handleMessage consensusMsg
  | .timeout => s.timeout

end QBFTConsensus

/-! ## A cluster of four peers -/

namespace FourPeers

/-- Quorums have three members and one peer may be faulty. -/
def definition : Definition where
  nodes := 4

/-- Peer 0 leads the first round, peer 1 the second. -/
def attesterDuty : Duty where
  slot := 1
  type := .attester

def transport : Transport where
  privateKey := List.replicate 32 7
  peers := (List.range 4).map fun peerIdx => { peerIdx, publicKey := [], peerId := "" }
  values := Dict.empty

def valueHash (byte : UInt8) : Bytes := List.replicate 32 byte

theorem first_pos : 1 ≤ 1 := Nat.le_refl 1

theorem second_pos : 1 ≤ 2 := Nat.le_succ 1

/-- An unsigned vote for a value in the first or second round. -/
def vote (type : MsgType) (peerIdx round : Nat) (byte : UInt8)
    (positive : 1 ≤ round := by
      first | exact FourPeers.first_pos | exact FourPeers.second_pos) : QBFTMsg where
  type
  duty := attesterDuty
  peerIdx
  round
  valueHash := some (valueHash byte)
  round_pos := positive
  preparedRound_le := Nat.zero_le _
  length_valueHash := by simp [valueHash]

/-- The hash of the one-byte value that fresh instances propose: its zero-padded encoding. -/
def proposalHash : Bytes := 7 :: List.replicate 31 0

theorem length_proposalHash : ∀ hash ∈ some proposalHash, hash.length = 32 := by
  rintro _ ⟨⟩
  rfl

/-- A vote for the proposal of a fresh instance. -/
def ownVote (type : MsgType) (peerIdx : Nat) : QBFTMsg where
  type
  duty := attesterDuty
  peerIdx
  round := 1
  valueHash := some proposalHash
  round_pos := first_pos
  preparedRound_le := Nat.zero_le _
  length_valueHash := length_proposalHash

/-- An unsigned ROUND-CHANGE message of a peer that prepared nothing. -/
def changeTo (peerIdx round : Nat)
    (positive : 1 ≤ round := by
      first | exact FourPeers.first_pos | exact FourPeers.second_pos) : QBFTMsg where
  type := .roundChange
  duty := attesterDuty
  peerIdx
  round
  round_pos := positive
  preparedRound_le := Nat.zero_le _

/-- A ROUND-CHANGE of a peer that prepared a value in round 1, with the PREPAREs of three peers. -/
def changeWithPrepares (peerIdx : Nat) (byte : UInt8) : QBFTConsensusMsg where
  msg :=
    { changeTo peerIdx 2 with
      preparedRound := 1
      preparedValueHash := valueHash byte
      preparedRound_le := second_pos
      length_preparedValueHash := by simp [valueHash] }
  justification := [0, 2, 3].map fun peer => vote .prepare peer 1 byte

/-- The message in the form in which every peer of the cluster broadcasts it when
signatures are constant. -/
def signed (msg : QBFTMsg) : QBFTMsg := { msg with signature := some (List.replicate 65 0) }

/-- The reception of a message without values. -/
def receive (msg : QBFTMsg) (justification : List QBFTMsg := []) : QBFTConsensus.Event :=
  .receive { msg, justification }

/-- A fresh instance of a peer, proposing a one-byte value. -/
def fresh (peer : Nat) : QBFTConsensus :=
  letI := constantCrypto
  QBFTConsensus.new definition transport attesterDuty peer [7]

end FourPeers

end DvSpec.Consensus
