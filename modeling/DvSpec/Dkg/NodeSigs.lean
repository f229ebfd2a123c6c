import DvSpec.Cluster.Attestation
import DvSpec.Dkg.Frost

/-!
# The node signature exchange

Every node signs the cluster lock hash and broadcasts the signature; a participant with
nothing to sign broadcasts a sentinel.  A message counts for the slot of its sender only,
and the exchange is complete when every slot is filled.
-/

namespace DvSpec.Dkg

open DvSpec.Library DvSpec.Library.Raising DvSpec.Cluster DvSpec.Secp256k1

/-- Sentinel standing in for "no signature". -/
def noneData : Bytes := [0xDE, 0xAD, 0xBE, 0xEF]

/-- A node's signature over the cluster lock hash. -/
structure MsgNodeSig where
  signature : Bytes
  peerIndex : Nat
  peerIndex_le : peerIndex ≤ uint32Max := by decide

/-- Validate a received node signature message before verifying its bytes. -/
def verifyNodeSigMsg (msg : MsgNodeSig) (senderPeerIndex ownPeerIndex numPeers : Nat) :
    Except PyError Unit :=
  if msg.peerIndex ≥ numPeers then .error (.valueError "invalid peer index")
  else if msg.peerIndex = ownPeerIndex then .error (.valueError "invalid peer index")
  else if msg.peerIndex ≠ senderPeerIndex then
    .error (.valueError "sender peer ID does not match claimed peer index")
  else .ok ()

/-- `sigs[index]` unless it is the sentinel. -/
def signatureAt (sigs : Dict Nat Bytes) (index : Nat) : Option Bytes :=
  (sigs.get? index).filter fun signature => signature ≠ noneData

/-- Return the ordered node signatures once every peer has contributed. -/
def collectNodeSigs (sigs : Dict Nat Bytes) (numPeers : Nat) : Option (List Bytes) :=
  if (List.range numPeers).any fun index => !sigs.contains index then none
  else some ((List.range numPeers).filterMap (signatureAt sigs))

/-! ## A node's exchange -/

/-- What a node brings to the exchange: the peers' public keys by peer index, the lock hash,
and whether it holds a key itself. -/
structure NodeSigExchange where
  nodePubkeys : List Bytes
  digest : Bytes
  ownPeerIndex : Nat
  holdsKey : Bool

namespace NodeSigExchange

variable [EthKeys] (x : NodeSigExchange)

def numPeers : Nat := x.nodePubkeys.length

/-- The bytes recorded for a peer's signature: a node without a key records the sentinel for
all, other nodes verify what is not the sentinel. -/
def recorded (peer : Nat) (signature : Bytes) : Option Bytes :=
  if x.holdsKey = false ∨ signature = noneData then some noneData
  else if Secp256k1.verify (x.nodePubkeys.getD peer []) x.digest signature = .ok true then
    some signature
  else none

/-- Validate a message from a peer and record its signature. -/
def receive (sigs : Dict Nat Bytes) (arrival : Nat × MsgNodeSig) : Dict Nat Bytes :=
  match verifyNodeSigMsg arrival.2 arrival.1 x.ownPeerIndex x.numPeers,
      x.recorded arrival.2.peerIndex arrival.2.signature with
  | .ok (), some signature => sigs.set arrival.2.peerIndex signature
  | _, _ => sigs

/-- The signatures recorded of a sequence of arrivals, with the node's own from the start. -/
def exchange (own : Bytes) (arrivals : List (Nat × MsgNodeSig)) : Dict Nat Bytes :=
  arrivals.foldl x.receive (Dict.empty.set x.ownPeerIndex own)

end NodeSigExchange

/-! ## Slots and their senders -/

/-- Accepted messages claim the index of their sender, another one than the receiver's. -/
theorem verifyNodeSigMsg_eq_ok_iff {msg : MsgNodeSig} {sender own numPeers : Nat} :
    verifyNodeSigMsg msg sender own numPeers = .ok () ↔
      msg.peerIndex = sender ∧ sender < numPeers ∧ sender ≠ own := by
  unfold verifyNodeSigMsg
  split
  · exact iff_of_false (by simp) (by omega)
  · split
    · exact iff_of_false (by simp) (by omega)
    · split
      · exact iff_of_false (by simp) (by omega)
      · exact iff_of_true rfl (by omega)

/-- Collection succeeds iff every slot is filled, with what is not the sentinel in order. -/
theorem collectNodeSigs_eq_some_iff {sigs : Dict Nat Bytes} {numPeers : Nat} {collected : List Bytes} :
    collectNodeSigs sigs numPeers = some collected ↔
      (∀ peer < numPeers, ∃ signature, sigs.get? peer = some signature) ∧
        collected = (List.range numPeers).filterMap (signatureAt sigs) := by
  have missing : ((List.range numPeers).any fun index => !sigs.contains index) = true ↔
      ¬∀ peer < numPeers, ∃ signature, sigs.get? peer = some signature := by
    simp [List.any_eq_true, Dict.contains, Option.eq_none_iff_forall_ne_some]
  unfold collectNodeSigs
  split
  · rename_i gap
    exact iff_of_false (by simp) fun complete => missing.mp gap complete.1
  · rename_i filled
    have complete := not_not.mp (mt missing.mpr filled)
    rw [Option.some.injEq]
    exact ⟨fun equal => ⟨complete, equal.symm⟩, fun same => same.2.symm⟩

/-- The peers with a signature in their slot. -/
def signers (sigs : Dict Nat Bytes) (numPeers : Nat) : List Nat :=
  (List.range numPeers).filter fun peer => (signatureAt sigs peer).isSome

theorem mem_zip_filterMap {κ α β : Type} {keys : List κ} {value : κ → Option α} {label : κ → β} :
    ∀ pair ∈ ((keys.filter fun key => (value key).isSome).map label).zip (keys.filterMap value),
      ∃ key ∈ keys, label key = pair.1 ∧ value key = some pair.2 := by
  induction keys with
  | nil => simp
  | cons key rest ih =>
      intro pair member
      cases found : value key with
      | none =>
          rw [List.filter_cons_of_neg (by simp [found]), List.filterMap_cons_none found] at member
          obtain ⟨other, among, facts⟩ := ih pair member
          exact ⟨other, List.mem_cons_of_mem _ among, facts⟩
      | some item =>
          rw [List.filter_cons_of_pos (by simp [found]), List.filterMap_cons_some found,
            List.map_cons, List.zip_cons_cons] at member
          rcases List.mem_cons.mp member with rfl | later
          · exact ⟨key, List.mem_cons_self, rfl, found⟩
          · obtain ⟨other, among, facts⟩ := ih pair later
            exact ⟨other, List.mem_cons_of_mem _ among, facts⟩

namespace NodeSigExchange

variable [EthKeys] {x : NodeSigExchange} {own : Bytes} {arrivals : List (Nat × MsgNodeSig)}

/-- An arrival that puts a signature into the slot of its sender. -/
structure Fills (x : NodeSigExchange) (peer : Nat) (arrival : Nat × MsgNodeSig)
    (signature : Bytes) : Prop where
  sender : arrival.1 = peer
  claimed : arrival.2.peerIndex = peer
  known : peer < x.numPeers
  other : peer ≠ x.ownPeerIndex
  recorded : x.recorded peer arrival.2.signature = some signature

/-- An arrival fills the slot of its sender or nothing. -/
theorem receive_cases (sigs : Dict Nat Bytes) (arrival : Nat × MsgNodeSig) :
    (∃ signature, x.Fills arrival.1 arrival signature ∧
        x.receive sigs arrival = sigs.set arrival.1 signature) ∨
      (∀ signature, ¬x.Fills arrival.1 arrival signature) ∧ x.receive sigs arrival = sigs := by
  unfold receive
  cases validated : verifyNodeSigMsg arrival.2 arrival.1 x.ownPeerIndex x.numPeers with
  | error raised =>
      refine Or.inr ⟨fun signature fills => ?_, rfl⟩
      rw [verifyNodeSigMsg_eq_ok_iff.mpr ⟨fills.claimed, fills.known, fills.other⟩] at validated
      cases validated
  | ok accepted =>
      obtain ⟨claimed, known, other⟩ := verifyNodeSigMsg_eq_ok_iff.mp validated
      rw [claimed]
      cases bytes : x.recorded arrival.1 arrival.2.signature with
      | none =>
          refine Or.inr ⟨fun signature fills => ?_, rfl⟩
          cases bytes.symm.trans fills.recorded
      | some signature => exact Or.inl ⟨signature, ⟨rfl, claimed, known, other, bytes⟩, rfl⟩

/-- The node's own slot keeps its own signature, and every other slot holds what its own peer
sent last. -/
theorem get?_exchange (peer : Nat) :
    (peer = x.ownPeerIndex → (x.exchange own arrivals).get? peer = some own) ∧
      (peer ≠ x.ownPeerIndex → ∀ signature, (x.exchange own arrivals).get? peer = some signature →
        ∃ arrival ∈ arrivals, x.Fills peer arrival signature) ∧
      ∀ arrival ∈ arrivals, ∀ signature, x.Fills peer arrival signature →
        ∃ latest, (x.exchange own arrivals).get? peer = some latest := by
  induction arrivals using List.reverseRecOn with
  | nil =>
      refine ⟨?_, ?_, by simp⟩
      · rintro rfl
        exact Dict.get?_set_self _ _ _
      · intro other signature stored
        rw [exchange, List.foldl_nil, Dict.get?_set_ne _ _ other] at stored
        cases stored
  | append_singleton arrivals last ih =>
      obtain ⟨ownSlot, slots, filled⟩ := ih
      have step : x.exchange own (arrivals ++ [last]) = x.receive (x.exchange own arrivals) last := by
        rw [exchange, List.foldl_append]
        rfl
      rcases @receive_cases _ x (x.exchange own arrivals) last with ⟨made, fills, set⟩ | ⟨idle, same⟩
      · rw [step, set]
        by_cases here : peer = last.1
        · rw [here, Dict.get?_set_self]
          refine ⟨fun mine => absurd mine fills.other, fun _ signature stored => ?_,
            fun _ _ _ _ => ⟨made, rfl⟩⟩
          cases stored
          exact ⟨last, List.mem_append_right _ (List.mem_singleton_self last), fills⟩
        · rw [Dict.get?_set_ne _ _ here]
          refine ⟨ownSlot, fun other signature stored => ?_, fun arrival member signature filler => ?_⟩
          · obtain ⟨arrival, member, filler⟩ := slots other signature stored
            exact ⟨arrival, List.mem_append_left _ member, filler⟩
          · rcases List.mem_append.mp member with earlier | final
            · exact filled arrival earlier signature filler
            · rw [List.mem_singleton.mp final] at filler
              exact absurd filler.sender.symm here
      · rw [step, same]
        refine ⟨ownSlot, fun other signature stored => ?_, fun arrival member signature filler => ?_⟩
        · obtain ⟨arrival, member, filler⟩ := slots other signature stored
          exact ⟨arrival, List.mem_append_left _ member, filler⟩
        · rcases List.mem_append.mp member with earlier | final
          · exact filled arrival earlier signature filler
          · rw [List.mem_singleton.mp final] at filler
            obtain rfl := filler.sender
            exact absurd filler (idle signature)

/-- A node with a key records a signature as it is, once it is the sentinel or verified. -/
theorem recorded_eq_some_iff (holds : x.holdsKey = true) (sized : x.digest.length = Secp256k1.hashLength)
    {peer : Nat} {signature kept : Bytes} :
    x.recorded peer signature = some kept ↔ kept = signature ∧
      (signature = noneData ∨
        Secp256k1.recover x.digest signature = .ok (x.nodePubkeys.getD peer [])) := by
  unfold recorded
  rw [holds, Secp256k1.verify_eq sized]
  generalize x.nodePubkeys.getD peer [] = pubkey
  by_cases sentinel : signature = noneData
  · simp [sentinel, eq_comm]
  · by_cases recovers : Secp256k1.recover x.digest signature = .ok pubkey
    · simp [sentinel, recovers, eq_comm]
    · simp [sentinel, recovers]

/-- A peer's message has arrived under its own index. -/
def Heard (arrivals : List (Nat × MsgNodeSig)) (peer : Nat) : Prop :=
  ∃ arrival ∈ arrivals, arrival.1 = peer ∧ arrival.2.peerIndex = peer

instance (arrivals : List (Nat × MsgNodeSig)) (peer : Nat) : Decidable (Heard arrivals peer) :=
  inferInstanceAs (Decidable (∃ arrival ∈ arrivals, arrival.1 = peer ∧ arrival.2.peerIndex = peer))

/-! ## Reliable broadcasts -/

/-- Every peer's messages under its own index have one payload. -/
def Broadcast (payload : Nat → Bytes) (arrivals : List (Nat × MsgNodeSig)) : Prop :=
  ∀ arrival ∈ arrivals, arrival.2.peerIndex = arrival.1 → arrival.2.signature = payload arrival.1

/-- A payload is the sentinel or verifies under the key of its peer. -/
def Acceptable (x : NodeSigExchange) (payload : Nat → Bytes) (peer : Nat) : Prop :=
  payload peer = noneData ∨
    Secp256k1.verify (x.nodePubkeys.getD peer []) x.digest (payload peer) = .ok true

section Broadcasts

variable {payload : Nat → Bytes} (holds : x.holdsKey = true)
variable (sized : x.digest.length = Secp256k1.hashLength) (broadcast : Broadcast payload arrivals)

include holds sized

theorem recorded_payload_iff {peer : Nat} :
    x.recorded peer (payload peer) = some (payload peer) ↔ x.Acceptable payload peer := by
  rw [Acceptable, recorded_eq_some_iff holds sized, Secp256k1.verify_eq sized, Except.ok.injEq,
    decide_eq_true_iff]
  exact and_iff_right rfl

include broadcast

/-- The slot of another peer holds its payload once the peer was heard, and nothing before. -/
theorem slot_iff {peer : Nat} (below : peer < x.numPeers) (other : peer ≠ x.ownPeerIndex)
    {signature : Bytes} :
    (x.exchange own arrivals).get? peer = some signature ↔
      signature = payload peer ∧ Heard arrivals peer ∧ x.Acceptable payload peer := by
  have content : ∀ kept, (x.exchange own arrivals).get? peer = some kept → kept = payload peer ∧
      Heard arrivals peer ∧ x.Acceptable payload peer := by
    intro kept held
    obtain ⟨arrival, member, fills⟩ := (get?_exchange peer).2.1 other kept held
    have sent := broadcast arrival member (fills.claimed.trans fills.sender.symm)
    rw [fills.sender] at sent
    obtain ⟨same, -⟩ := (recorded_eq_some_iff holds sized).mp fills.recorded
    have recorded := fills.recorded
    rw [same, sent] at recorded
    exact ⟨same.trans sent, ⟨arrival, member, fills.sender, fills.claimed⟩,
      (recorded_payload_iff holds sized).mp recorded⟩
  constructor
  · exact content signature
  · rintro ⟨rfl, ⟨arrival, member, sender, claimed⟩, acceptable⟩
    have sent := broadcast arrival member (claimed.trans sender.symm)
    rw [sender] at sent
    have fills : x.Fills peer arrival (payload peer) :=
      ⟨sender, claimed, below, other, sent ▸ (recorded_payload_iff holds sized).mpr acceptable⟩
    obtain ⟨latest, held⟩ := (get?_exchange peer).2.2 arrival member _ fills
    rw [held, (content latest held).1]

/-- All slots are filled iff every other peer was heard with an acceptable payload. -/
theorem filled_iff :
    (∀ peer < x.numPeers, ∃ signature, (x.exchange own arrivals).get? peer = some signature) ↔
      ∀ peer < x.numPeers, peer ≠ x.ownPeerIndex →
        Heard arrivals peer ∧ x.Acceptable payload peer := by
  constructor
  · intro filled peer below other
    obtain ⟨signature, held⟩ := filled peer below
    exact ((slot_iff holds sized broadcast below other).mp held).2
  · intro complete peer below
    by_cases mine : peer = x.ownPeerIndex
    · exact ⟨own, (get?_exchange peer).1 mine⟩
    · exact ⟨payload peer,
        (slot_iff holds sized broadcast below mine).mpr ⟨rfl, complete peer below mine⟩⟩

/-- Filled slots hold the payloads, in the order of the peers. -/
theorem signatures_of_filled (filled : ∀ peer < x.numPeers, ∃ signature,
      (x.exchange (payload x.ownPeerIndex) arrivals).get? peer = some signature) :
    (List.range x.numPeers).filterMap
        (signatureAt (x.exchange (payload x.ownPeerIndex) arrivals)) =
      ((List.range x.numPeers).map payload).filter fun signature => signature ≠ noneData := by
  rw [← List.filterMap_eq_filter, List.filterMap_map]
  apply List.filterMap_congr
  intro peer member
  obtain ⟨signature, held⟩ := filled peer (List.mem_range.mp member)
  have content : signature = payload peer := by
    by_cases mine : peer = x.ownPeerIndex
    · rw [(get?_exchange peer).1 mine, Option.some.injEq] at held
      rw [← held, mine]
    · exact ((slot_iff holds sized broadcast (List.mem_range.mp member) mine).mp held).1
  rw [signatureAt, held, content]
  rfl

end Broadcasts

/-- When every peer broadcasts one payload, a node with a key completes exactly when it has heard
every other peer and each payload is the sentinel or verifies; it has then collected the payloads
in the order of the peers without the sentinels, whatever the order of the arrivals. -/
theorem exchange_collects (holds : x.holdsKey = true)
    (sized : x.digest.length = Secp256k1.hashLength) {payload : Nat → Bytes}
    (broadcast : Broadcast payload arrivals) {collected : List Bytes} :
    collectNodeSigs (x.exchange (payload x.ownPeerIndex) arrivals) x.numPeers = some collected ↔
      (∀ peer < x.numPeers, peer ≠ x.ownPeerIndex →
        Heard arrivals peer ∧ x.Acceptable payload peer) ∧
      collected = ((List.range x.numPeers).map payload).filter fun signature =>
        signature ≠ noneData := by
  rw [collectNodeSigs_eq_some_iff, ← @filled_iff _ x (payload x.ownPeerIndex) arrivals payload
    holds sized broadcast]
  apply and_congr_right
  intro filled
  rw [signatures_of_filled holds sized broadcast filled]

/-- Whatever the peers send and in whatever order, the signatures a node has collected in the end
pass the verification of the lock they are stored in, with the keys of the peers that signed. -/
theorem collected_verify (sha256 : Bytes → Bytes) (holds : x.holdsKey = true)
    (sized : x.digest.length = Secp256k1.hashLength) (ownSigned : x.recorded x.ownPeerIndex own = some own)
    {collected : List Bytes}
    (complete : collectNodeSigs (x.exchange own arrivals) x.numPeers = some collected) {lock : Lock}
    (hashed : lockHash sha256 lock = .ok x.digest) (stored : lock.nodeSignatures = collected)
    (operators : lock.definition.numOperators = collected.length) :
    verifyNodeSignatures sha256 lock
      ((signers (x.exchange own arrivals) x.numPeers).map fun peer => x.nodePubkeys.getD peer []) =
        .ok true := by
  obtain ⟨-, rfl⟩ := collectNodeSigs_eq_some_iff.mp complete
  rw [verifyNodeSignatures_eq_ok_true_iff hashed sized, operators, stored]
  refine ⟨rfl, ?_, fun pair member => ?_⟩
  · rw [signers, List.length_map, List.length_filterMap_eq_countP, List.countP_eq_length_filter]
  · obtain ⟨peer, -, key, slot⟩ := mem_zip_filterMap pair member
    obtain ⟨held, signed⟩ := Option.filter_eq_some_iff.mp slot
    have real : pair.2 ≠ noneData := of_decide_eq_true signed
    rw [← key]
    by_cases mine : peer = x.ownPeerIndex
    · rw [(get?_exchange peer).1 mine, Option.some.injEq] at held
      obtain ⟨-, verified⟩ := (recorded_eq_some_iff holds sized).mp ownSigned
      rw [held, ← mine] at verified
      exact verified.resolve_left real
    · obtain ⟨arrival, -, fills⟩ := (get?_exchange peer).2.1 mine _ held
      obtain ⟨same, verified⟩ := (recorded_eq_some_iff holds sized).mp fills.recorded
      rw [← same] at verified
      exact verified.resolve_left real

end NodeSigExchange

/-! ## A departing operator -/

section Departing

attribute [local instance] plainKeys

/-- The exchange of the first of four nodes, with a departing fifth. -/
def departingExchange (digest : Bytes) : NodeSigExchange where
  nodePubkeys := sharedNodeKeys.map (2 :: ·) ++ [2 :: List.replicate 32 5]
  digest := digest
  ownPeerIndex := 0
  holdsKey := true

/-- What a peer broadcasts: a signature, or the sentinel if it departs. -/
def departingPayload (digest : Bytes) (peer : Nat) : Bytes :=
  match sharedNodeKeys[peer]? with
  | some secret => secret ++ digest ++ [0]
  | none => noneData

theorem small_index {peer : Fin 5} : peer.val ≤ uint32Max :=
  Nat.le_trans (Nat.le_of_lt peer.isLt) (by decide)

/-- A message that claims the slot of a peer, with the payload of a signer. -/
def claiming (digest : Bytes) (peer : Fin 5) (signer : Nat) : MsgNodeSig :=
  ⟨departingPayload digest signer, peer.val, small_index⟩

/-- The third node's message, one of its in the slot of the second, and those of the rest. -/
def departingArrivals (digest : Bytes) : List (Nat × MsgNodeSig) :=
  [(2, claiming digest 2 2), (2, claiming digest 1 2), (4, claiming digest 4 4),
    (1, claiming digest 1 1), (3, claiming digest 3 3)]

theorem broadcast_departing (digest : Bytes) :
    NodeSigExchange.Broadcast (departingPayload digest) (departingArrivals digest) := by
  intro arrival member claims
  simp only [departingArrivals, List.mem_cons, List.not_mem_nil, or_false] at member
  rcases member with rfl | rfl | rfl | rfl | rfl
  · rfl
  · cases claims
  · rfl
  · rfl
  · rfl

theorem verify_plainKeys {secret digest : Bytes} (known : secret.length = Secp256k1.secretLength)
    (sized : digest.length = Secp256k1.hashLength) :
    Secp256k1.verify (2 :: secret) digest (secret ++ digest ++ [0]) = .ok true := by
  rw [Secp256k1.verify_eq sized]
  exact congrArg Except.ok
    (decide_eq_true (Secp256k1.recover_signMsgHash (signs_plainKeys known) sized))

theorem acceptable_departing {digest : Bytes} (sized : digest.length = Secp256k1.hashLength)
    {peer : Nat} (below : peer < 5) :
    (departingExchange digest).Acceptable (departingPayload digest) peer := by
  have cases : peer = 0 ∨ peer = 1 ∨ peer = 2 ∨ peer = 3 ∨ peer = 4 := by omega
  rcases cases with rfl | rfl | rfl | rfl | rfl
  · exact Or.inr (verify_plainKeys rfl sized)
  · exact Or.inr (verify_plainKeys rfl sized)
  · exact Or.inr (verify_plainKeys rfl sized)
  · exact Or.inr (verify_plainKeys rfl sized)
  · exact Or.inl rfl

theorem heard_departing (digest : Bytes) {peer : Nat} (below : peer < 5) (other : peer ≠ 0) :
    NodeSigExchange.Heard (departingArrivals digest) peer := by
  have cases : peer = 1 ∨ peer = 2 ∨ peer = 3 ∨ peer = 4 := by omega
  rcases cases with rfl | rfl | rfl | rfl
  · exact ⟨(1, claiming digest 1 1), by simp [departingArrivals], rfl, rfl⟩
  · exact ⟨(2, claiming digest 2 2), by simp [departingArrivals], rfl, rfl⟩
  · exact ⟨(3, claiming digest 3 3), by simp [departingArrivals], rfl, rfl⟩
  · exact ⟨(4, claiming digest 4 4), by simp [departingArrivals], rfl, rfl⟩

theorem payloads_departing (digest : Bytes) :
    ((List.range 5).map (departingPayload digest)).filter (fun signature => signature ≠ noneData) =
      sharedNodeKeys.map fun secret => secret ++ digest ++ [0] := by
  have known : ∀ secret ∈ sharedNodeKeys, secret.length = 32 := by decide
  have long : ∀ secret ∈ sharedNodeKeys, secret ++ digest ++ [0] ≠ noneData := by
    intro secret member equal
    have sizes := congrArg List.length equal
    rw [List.length_append, List.length_append, known secret member] at sizes
    change 32 + digest.length + 1 = 4 at sizes
    omega
  have payloads : (List.range 5).map (departingPayload digest) =
      (sharedNodeKeys.map fun secret => secret ++ digest ++ [0]) ++ [noneData] := rfl
  rw [payloads, List.filter_append, List.filter_eq_self.mpr]
  · simp
  · intro signature member
    obtain ⟨secret, known, rfl⟩ := List.mem_map.mp member
    exact decide_eq_true (long secret known)

/-- The four signatures are collected in the order of the nodes, and the sentinel is dropped. -/
theorem exchange_collects_departing :
    collectNodeSigs ((departingExchange sharedDigest).exchange (departingPayload sharedDigest 0)
      (departingArrivals sharedDigest)) 5 = some attestedLock.nodeSignatures :=
  (NodeSigExchange.exchange_collects rfl length_sharedDigest
    (broadcast_departing sharedDigest)).mpr
      ⟨fun _ below other => ⟨heard_departing sharedDigest below other,
        acceptable_departing length_sharedDigest below⟩, (payloads_departing sharedDigest).symm⟩

/-- The lock attested by the four signatures passes with the keys of their signers. -/
theorem collected_verify_departing :
    verifyNodeSignatures Sha256.sha256 attestedLock
      ((signers ((departingExchange sharedDigest).exchange (departingPayload sharedDigest 0)
        (departingArrivals sharedDigest)) 5).map fun peer =>
          (departingExchange sharedDigest).nodePubkeys.getD peer []) = .ok true := by
  have broadcast := broadcast_departing sharedDigest
  have ownSigned := (NodeSigExchange.recorded_payload_iff rfl length_sharedDigest).mpr
    (@acceptable_departing sharedDigest length_sharedDigest 0 (by decide))
  have filled := (@NodeSigExchange.filled_iff _ (departingExchange sharedDigest)
    (departingPayload sharedDigest 0) (departingArrivals sharedDigest) _ rfl length_sharedDigest
    broadcast).mpr fun _ below other => ⟨heard_departing sharedDigest below other,
      acceptable_departing length_sharedDigest below⟩
  have collected := NodeSigExchange.signatures_of_filled rfl length_sharedDigest broadcast filled
  have complete := collectNodeSigs_eq_some_iff.mpr ⟨filled, collected.symm⟩
  rw [show (departingExchange sharedDigest).numPeers = 5 from rfl, payloads_departing] at complete
  exact NodeSigExchange.collected_verify Sha256.sha256 rfl length_sharedDigest ownSigned complete
    lockHash_attested rfl rfl

end Departing

end DvSpec.Dkg
