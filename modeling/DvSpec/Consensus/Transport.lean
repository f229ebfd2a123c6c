import DvSpec.Consensus.Cryptography
import DvSpec.Library.Dict
import Mathlib.Data.List.Dedup

/-!
# Transport for QBFT messages

A broadcast builds and signs one copy of the message for every peer.  Building a
copy fails when a field validator or the signer raises, and the broadcast with it.
-/

namespace DvSpec.Consensus

open DvSpec.Library

/-- Information about a peer in the consensus cluster. -/
structure PeerInfo where
  peerIdx : Nat
  publicKey : Bytes
  peerId : String

/-- Transport layer for QBFT consensus messages. -/
structure Transport where
  privateKey : Bytes
  peers : List PeerInfo
  values : Dict Bytes Bytes

namespace Transport

variable [Crypto]

def numPeers (t : Transport) : Nat := t.peers.length

/-- Set the mapping of value hashes to their corresponding values. -/
def setValues (t : Transport) (mapping : List (Bytes × Bytes)) : Transport :=
  { t with values := mapping.foldl (fun values entry => values.set entry.1 entry.2) t.values }

def getValue (t : Transport) (valueHash : Bytes) : Option Bytes := t.values.get? valueHash

/-- Sign a message that has no signature yet. -/
def signMessage (t : Transport) (msg : QBFTMsg) : Except PyError Bytes :=
  if msg.signature.isSome then
    .error (.valueError "Message should not have signature set before signing")
  else sign (qbftSigningRoot msg) t.privateKey

/-- The stored value behind a hash, when the hash is present and known. -/
def knownValue (t : Transport) (valueHash : Option Bytes) : List Bytes :=
  match valueHash with
  | none => []
  | some hash => if hash = [] then [] else (t.getValue hash).toList

/-- Build and sign one message. -/
def signedMessage (t : Transport) (msgType : MsgType) (duty : Duty) (peerIdx roundNum : Nat)
    (valueHash : Option Bytes) (preparedRound : Option Nat)
    (preparedValueHash : Option Bytes) : Except PyError QBFTMsg :=
  match QBFTMsg.construct msgType duty peerIdx roundNum (preparedRound.getD 0) none valueHash
      (preparedValueHash.getD zeroHash) with
  | .error error => .error error
  | .ok msg =>
      match t.signMessage msg with
      | .error error => .error error
      | .ok signature => .ok { msg with signature := some signature }

/-- One copy of the result for every peer, or the first error. -/
def forEachPeer (t : Transport) (copy : Except PyError QBFTConsensusMsg) :
    Except PyError (List QBFTConsensusMsg) :=
  match t.numPeers, copy with
  | 0, _ => .ok []
  | _ + 1, .error error => .error error
  | count + 1, .ok message => .ok (List.replicate (count + 1) message)

/-- Create one signed message with the given justification for every peer. -/
def broadcastMessage (t : Transport) (msgType : MsgType) (duty : Duty) (peerIdx roundNum : Nat)
    (valueHash : Bytes) (justification : List QBFTMsg := [])
    (preparedRound : Option Nat := none) (preparedValueHash : Option Bytes := none) :
    Except PyError (List QBFTConsensusMsg) :=
  t.forEachPeer
    ((t.signedMessage msgType duty peerIdx roundNum
        (if msgType = .roundChange then none else some valueHash)
        preparedRound preparedValueHash).map fun msg =>
      { msg, justification
        values := (t.knownValue (some valueHash) ++ t.knownValue preparedValueHash).dedup })

/-- Broadcast the ROUND-CHANGE message for a round. -/
def broadcastRoundChange (t : Transport) (duty : Duty) (peerIdx roundNum : Nat)
    (preparedRound : Option Nat) (preparedValueHash : Option Bytes)
    (preparedJustification : List QBFTMsg) : Except PyError (List QBFTConsensusMsg) :=
  t.forEachPeer
    ((t.signedMessage .roundChange duty peerIdx roundNum none preparedRound
        preparedValueHash).map fun msg =>
      { msg, justification := preparedJustification
        values := t.knownValue preparedValueHash })

/-- Broadcast a PRE-PREPARE message for the node's own proposal. -/
def broadcastPrePrepare (t : Transport) (duty : Duty) (peerIdx roundNum : Nat)
    (valueHash : Bytes) (justification : List QBFTMsg) :
    Except PyError (List QBFTConsensusMsg) :=
  t.broadcastMessage .prePrepare duty peerIdx roundNum valueHash justification

/-! ## What a broadcast sends -/

omit [Crypto] in
@[simp]
theorem numPeers_setValues (t : Transport) (mapping : List (Bytes × Bytes)) :
    (t.setValues mapping).numPeers = t.numPeers := rfl

omit [Crypto] in
@[simp]
theorem privateKey_setValues (t : Transport) (mapping : List (Bytes × Bytes)) :
    (t.setValues mapping).privateKey = t.privateKey := rfl

omit [Crypto] in
theorem eq_ok_of_mem_forEachPeer {t : Transport} {copy : Except PyError QBFTConsensusMsg}
    {sent : List QBFTConsensusMsg} (success : t.forEachPeer copy = .ok sent)
    {message : QBFTConsensusMsg} (member : message ∈ sent) : copy = .ok message := by
  unfold forEachPeer at success
  split at success
  · cases success
    cases member
  · cases success
  · cases success
    exact congrArg Except.ok (List.eq_of_mem_replicate member).symm

omit [Crypto] in
/-- All the copies of a broadcast are the same message. -/
theorem eq_of_mem_forEachPeer {t : Transport} {copy : Except PyError QBFTConsensusMsg}
    {sent : List QBFTConsensusMsg} (success : t.forEachPeer copy = .ok sent)
    {x y : QBFTConsensusMsg} (xMember : x ∈ sent) (yMember : y ∈ sent) : x = y := by
  have first := eq_ok_of_mem_forEachPeer success xMember
  have second := eq_ok_of_mem_forEachPeer success yMember
  exact Except.ok.inj (first.symm.trans second)

omit [Crypto] in
theorem forEachPeer_ok (t : Transport) (message : QBFTConsensusMsg) :
    t.forEachPeer (.ok message) = .ok (List.replicate t.numPeers message) := by
  unfold forEachPeer
  split <;> simp_all

omit [Crypto] in
theorem eq_replicate_of_mem {t : Transport} {copy : Except PyError QBFTConsensusMsg}
    {sent : List QBFTConsensusMsg} (success : t.forEachPeer copy = .ok sent)
    {message : QBFTConsensusMsg} (member : message ∈ sent) :
    sent = List.replicate t.numPeers message := by
  have one := eq_ok_of_mem_forEachPeer success member
  rw [one, forEachPeer_ok] at success
  exact (Except.ok.inj success).symm

/-- The fields of a message built for sending. -/
structure Built (msg : QBFTMsg) (msgType : MsgType) (duty : Duty) (peerIdx roundNum : Nat)
    (valueHash : Option Bytes) (preparedRound : Nat) (preparedValueHash : Bytes) : Prop where
  type_eq : msg.type = msgType
  duty_eq : msg.duty = duty
  peerIdx_eq : msg.peerIdx = peerIdx
  round_eq : msg.round = roundNum
  valueHash_eq : msg.valueHash = valueHash
  preparedRound_eq : msg.preparedRound = preparedRound
  preparedValueHash_eq : msg.preparedValueHash = preparedValueHash
  consistent : preparedRound = 0 ↔ preparedValueHash = zeroHash

theorem built_of_signedMessage {t : Transport} {msgType : MsgType} {duty : Duty}
    {peerIdx roundNum : Nat} {valueHash : Option Bytes} {preparedRound : Option Nat}
    {preparedValueHash : Option Bytes} {msg : QBFTMsg}
    (success : t.signedMessage msgType duty peerIdx roundNum valueHash preparedRound
      preparedValueHash = .ok msg) :
    Built msg msgType duty peerIdx roundNum valueHash (preparedRound.getD 0)
      (preparedValueHash.getD zeroHash) := by
  unfold signedMessage at success
  split at success
  · cases success
  · rename_i plain constructed
    unfold QBFTMsg.construct at constructed
    split at constructed
    · rename_i valid
      have checked := (QBFTMsg.errors_eq_nil_iff _ _ _ _ _ _).mp valid
      cases constructed
      split at success
      · cases success
      · cases success
        exact ⟨rfl, rfl, rfl, rfl, rfl, rfl, rfl, checked.2.2.2.2.2⟩
    · cases constructed

/-- With a 32-byte secret, signing fails only where the field validators reject. -/
theorem signedMessage_succeeds {t : Transport} (secret : t.privateKey.length = 32)
    (msgType : MsgType) (duty : Duty) (peerIdx : Nat) {roundNum : Nat}
    (valueHash : Option Bytes) (preparedRound : Option Nat) (preparedValueHash : Option Bytes)
    (roundPos : 1 ≤ roundNum) (preparedLe : preparedRound.getD 0 ≤ roundNum)
    (sized : ∀ hash ∈ valueHash, hash.length = 32)
    (preparedSized : (preparedValueHash.getD zeroHash).length = 32)
    (consistent : preparedRound.getD 0 = 0 ↔ preparedValueHash.getD zeroHash = zeroHash) :
    ∃ msg, t.signedMessage msgType duty peerIdx roundNum valueHash preparedRound
      preparedValueHash = .ok msg := by
  have valid := (QBFTMsg.errors_eq_nil_iff peerIdx roundNum (preparedRound.getD 0) none valueHash
    (preparedValueHash.getD zeroHash)).mpr
    ⟨roundPos, preparedLe, by simp, sized, preparedSized, consistent⟩
  simp only [signedMessage, QBFTMsg.construct, dif_pos valid, signMessage, Option.isSome_none,
    Bool.false_eq_true, if_false, sign_signingRoot secret]
  exact ⟨_, rfl⟩

/-- What every copy of a broadcast looks like. -/
theorem mem_broadcastMessage {t : Transport} {msgType : MsgType} {duty : Duty}
    {peerIdx roundNum : Nat} {valueHash : Bytes} {justification : List QBFTMsg}
    {sent : List QBFTConsensusMsg}
    (success : t.broadcastMessage msgType duty peerIdx roundNum valueHash justification =
      .ok sent) {copy : QBFTConsensusMsg} (member : copy ∈ sent) :
    Built copy.msg msgType duty peerIdx roundNum
        (if msgType = .roundChange then none else some valueHash) 0 zeroHash ∧
      copy.justification = justification ∧
      copy.values = (t.knownValue (some valueHash)).dedup := by
  have one := eq_ok_of_mem_forEachPeer success member
  cases built : t.signedMessage msgType duty peerIdx roundNum
      (if msgType = .roundChange then none else some valueHash) none none with
  | error error =>
      rw [built] at one
      cases one
  | ok msg =>
      rw [built] at one
      cases one
      refine ⟨built_of_signedMessage built, rfl, ?_⟩
      simp [knownValue]

theorem mem_broadcastRoundChange {t : Transport} {duty : Duty} {peerIdx roundNum : Nat}
    {preparedRound : Option Nat} {preparedValueHash : Option Bytes}
    {preparedJustification : List QBFTMsg} {sent : List QBFTConsensusMsg}
    (success : t.broadcastRoundChange duty peerIdx roundNum preparedRound preparedValueHash
      preparedJustification = .ok sent) {copy : QBFTConsensusMsg} (member : copy ∈ sent) :
    Built copy.msg .roundChange duty peerIdx roundNum none (preparedRound.getD 0)
        (preparedValueHash.getD zeroHash) ∧
      copy.justification = preparedJustification ∧
      copy.values = t.knownValue preparedValueHash := by
  have one := eq_ok_of_mem_forEachPeer success member
  cases built : t.signedMessage .roundChange duty peerIdx roundNum none preparedRound
      preparedValueHash with
  | error error =>
      rw [built] at one
      cases one
  | ok msg =>
      rw [built] at one
      cases one
      exact ⟨built_of_signedMessage built, rfl, rfl⟩

/-- A broadcast that carries no prepared value succeeds and reaches every peer. -/
theorem broadcastMessage_succeeds {t : Transport} (secret : t.privateKey.length = 32)
    (msgType : MsgType) (duty : Duty) (peerIdx : Nat) {roundNum : Nat} {valueHash : Bytes}
    (justification : List QBFTMsg) (roundPos : 1 ≤ roundNum) (sized : valueHash.length = 32) :
    ∃ copy, t.broadcastMessage msgType duty peerIdx roundNum valueHash justification =
      .ok (List.replicate t.numPeers copy) := by
  obtain ⟨msg, built⟩ := signedMessage_succeeds secret msgType duty peerIdx
    (if msgType = .roundChange then none else some valueHash) none none roundPos
    (Nat.zero_le _)
    (by
      intro hash present
      split at present
      · cases present
      · cases present
        exact sized)
    rfl ⟨fun _ => rfl, fun _ => rfl⟩
  rw [broadcastMessage, built]
  exact ⟨_, forEachPeer_ok t _⟩

/-- Only a secret of 32 bytes signs. -/
theorem signedMessage_secret {t : Transport} {msgType : MsgType} {duty : Duty}
    {peerIdx roundNum : Nat} {valueHash : Option Bytes} {preparedRound : Option Nat}
    {preparedValueHash : Option Bytes} {msg : QBFTMsg}
    (success : t.signedMessage msgType duty peerIdx roundNum valueHash preparedRound
      preparedValueHash = .ok msg) : t.privateKey.length = 32 := by
  by_contra short
  unfold signedMessage at success
  split at success
  · cases success
  · rename_i plain constructed
    unfold QBFTMsg.construct at constructed
    split at constructed
    · cases constructed
      simp [signMessage, sign, short] at success
    · cases constructed

/-- Nothing is sent without peers or without a secret of 32 bytes. -/
theorem broadcastMessage_secret {t : Transport} {msgType : MsgType} {duty : Duty}
    {peerIdx roundNum : Nat} {valueHash : Bytes} {justification : List QBFTMsg}
    {sent : List QBFTConsensusMsg}
    (success : t.broadcastMessage msgType duty peerIdx roundNum valueHash justification =
      .ok sent) {copy : QBFTConsensusMsg} (member : copy ∈ sent) :
    t.numPeers ≠ 0 ∧ t.privateKey.length = 32 := by
  constructor
  · intro none
    unfold broadcastMessage forEachPeer at success
    rw [none] at success
    cases success
    cases member
  · have one := eq_ok_of_mem_forEachPeer success member
    cases built : t.signedMessage msgType duty peerIdx roundNum
        (if msgType = .roundChange then none else some valueHash) none none with
    | error error =>
        rw [built] at one
        cases one
    | ok msg => exact signedMessage_secret built

omit [Crypto] in
theorem length_knownValue_le (t : Transport) (valueHash : Option Bytes) :
    (t.knownValue valueHash).length ≤ 1 := by
  unfold knownValue
  split
  · exact Nat.zero_le _
  · split
    · exact Nat.zero_le _
    · cases t.getValue _ <;> simp

end Transport

end DvSpec.Consensus
