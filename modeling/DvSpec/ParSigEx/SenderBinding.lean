import DvSpec.Library.Dict
import DvSpec.Library.Raising
import DvSpec.Types.Duty

/-!
# Binding partial signatures to their senders

A peer may contribute partial signatures under its assigned share index only.
The peer map is checked when the exchange is constructed, each message when it
arrives; whether two peers can fill one slot depends on what both checks leave
open.
-/

namespace DvSpec.ParSigEx

open DvSpec.Library DvSpec.Library.Raising

/-- Partially signed duty data from one operator; share indices are 1-based. -/
structure ParSignedData where
  data : Bytes
  signature : Bytes
  shareIdx : Int
  one_le_shareIdx : 1 ≤ shareIdx
  deriving DecidableEq

/-- Bind a received partial signature to its authenticated sender. -/
def verifyPeerShareIdx (shareIdxByPeer : Dict String Int) (sender : String)
    (data : ParSignedData) : Except PyError Unit :=
  match shareIdxByPeer.get? sender with
  | none => .error (.valueError "partial signature from unknown peer")
  | some expectedShareIdx =>
      if data.shareIdx ≤ 0 ∨ data.shareIdx ≠ expectedShareIdx then
        .error (.valueError "partial signature share index does not match sender peer")
      else .ok ()

/-- The check of one peer's entry in the map. -/
def checkPeer (shareIdxByPeer : Dict String Int) (peer : String) : Except PyError Unit :=
  let missing : Except PyError Unit :=
    .error (.valueError s!"peer map missing valid share index for peer {peer}")
  match shareIdxByPeer.get? peer with
  | none => missing
  | some shareIdx => if shareIdx ≤ 0 then missing else .ok ()

/-- Validate an exchange's peer configuration before it starts. -/
def validateExchangePeers (peers : List String) (shareIdxByPeer : Dict String Int)
    (peerIdx : Int) : Except PyError Unit :=
  if ¬ (0 ≤ peerIdx ∧ peerIdx < peers.length) then
    .error (.valueError "peer index out of range")
  else forM peers (checkPeer shareIdxByPeer)

/-! ## What the checks accept -/

/-- A message is accepted exactly under the share index assigned to its sender. -/
theorem verifyPeerShareIdx_eq_ok_iff {shareIdxByPeer : Dict String Int} {sender : String}
    {data : ParSignedData} :
    verifyPeerShareIdx shareIdxByPeer sender data = .ok () ↔
      shareIdxByPeer.get? sender = some data.shareIdx := by
  have positive := data.one_le_shareIdx
  unfold verifyPeerShareIdx
  cases assigned : shareIdxByPeer.get? sender with
  | none =>
      constructor
      · intro accepted
        cases accepted
      · intro found
        cases found
  | some expected =>
      simp only [ite_eq_right_iff, reduceCtorEq, imp_false, Option.some.injEq]
      omega

/-- A checked peer has a positive share index. -/
theorem checkPeer_eq_ok_iff {shareIdxByPeer : Dict String Int} {peer : String} :
    checkPeer shareIdxByPeer peer = .ok () ↔
      ∃ shareIdx, shareIdxByPeer.get? peer = some shareIdx ∧ 1 ≤ shareIdx := by
  unfold checkPeer
  cases shareIdxByPeer.get? peer with
  | none => simp
  | some shareIdx =>
      simp only [ite_eq_right_iff, reduceCtorEq, imp_false, Option.some.injEq, exists_eq_left']
      omega

/-- An accepted configuration assigns every listed peer a positive share index. -/
theorem assigned_of_validateExchangePeers {peers : List String} {shareIdxByPeer : Dict String Int}
    {peerIdx : Int} (validated : validateExchangePeers peers shareIdxByPeer peerIdx = .ok ()) :
    ∀ peer ∈ peers, ∃ shareIdx, shareIdxByPeer.get? peer = some shareIdx ∧ 1 ≤ shareIdx := by
  unfold validateExchangePeers at validated
  split at validated
  · cases validated
  · intro peer member
    exact checkPeer_eq_ok_iff.mp (forM_eq_ok_iff.mp validated peer member)

/-! ## Slots -/

/-- No partial signature is accepted from two different peers of the list. -/
def ExclusiveSlots (peers : List String) (shareIdxByPeer : Dict String Int) : Prop :=
  ∀ one ∈ peers, ∀ two ∈ peers, one ≠ two → ¬ ∃ data,
    verifyPeerShareIdx shareIdxByPeer one data = .ok () ∧
      verifyPeerShareIdx shareIdxByPeer two data = .ok ()

/-- The map assigns different share indices to different peers of the list. -/
def DistinctIndices (peers : List String) (shareIdxByPeer : Dict String Int) : Prop :=
  ∀ one ∈ peers, ∀ two ∈ peers, shareIdxByPeer.get? one = shareIdxByPeer.get? two → one = two

instance (peers : List String) (shareIdxByPeer : Dict String Int) :
    Decidable (DistinctIndices peers shareIdxByPeer) :=
  inferInstanceAs (Decidable (∀ one ∈ peers, ∀ two ∈ peers,
    shareIdxByPeer.get? one = shareIdxByPeer.get? two → one = two))

/-- Every positive share index is claimed by some partial signature. -/
theorem accepted_under_index {shareIdxByPeer : Dict String Int} {shareIdx : Int}
    (positive : 1 ≤ shareIdx) :
    ∃ data : ParSignedData, ∀ peer, verifyPeerShareIdx shareIdxByPeer peer data = .ok () ↔
      shareIdxByPeer.get? peer = some shareIdx :=
  ⟨⟨[], [], shareIdx, positive⟩, fun _ => verifyPeerShareIdx_eq_ok_iff⟩

/-- In an accepted configuration no two peers can fill one slot exactly when the map gives
them different share indices; the construction does not check that it does. -/
theorem exclusiveSlots_iff_distinctIndices {peers : List String}
    {shareIdxByPeer : Dict String Int} {peerIdx : Int}
    (validated : validateExchangePeers peers shareIdxByPeer peerIdx = .ok ()) :
    ExclusiveSlots peers shareIdxByPeer ↔ DistinctIndices peers shareIdxByPeer := by
  constructor
  · intro exclusive one inOne two inTwo same
    by_contra different
    obtain ⟨shareIdx, assigned, positive⟩ := assigned_of_validateExchangePeers validated one inOne
    obtain ⟨data, accepted⟩ := @accepted_under_index shareIdxByPeer shareIdx positive
    exact exclusive one inOne two inTwo different
      ⟨data, (accepted one).mpr assigned, (accepted two).mpr (same ▸ assigned)⟩
  · rintro distinct one inOne two inTwo different ⟨data, first, second⟩
    rw [verifyPeerShareIdx_eq_ok_iff] at first second
    exact different (distinct one inOne two inTwo (first.trans second.symm))

/-- A map with gaps. -/
def gappedMap : Dict String Int := Dict.ofEntries [("a", 1), ("b", 4)]

/-- Peers with different indices keep their slots. -/
theorem exclusiveSlots_iff_distinctIndices_gapped : ExclusiveSlots ["a", "b"] gappedMap :=
  (exclusiveSlots_iff_distinctIndices
    (show validateExchangePeers ["a", "b"] gappedMap 0 = .ok () by decide)).mpr (by decide)

/-- A map that assigns one index twice. -/
def doubledMap : Dict String Int := Dict.ofEntries [("a", 1), ("b", 1)]

/-- The doubled map is accepted, and a partial signature is accepted from both peers. -/
theorem doubledMap_shares_slot :
    validateExchangePeers ["a", "b"] doubledMap 0 = .ok () ∧
      ¬ ExclusiveSlots ["a", "b"] doubledMap := by
  refine ⟨by decide, fun exclusive => ?_⟩
  exact exclusive "a" (by decide) "b" (by decide) (by decide)
    ⟨⟨[], [], 1, by decide⟩, by decide, by decide⟩

end DvSpec.ParSigEx
