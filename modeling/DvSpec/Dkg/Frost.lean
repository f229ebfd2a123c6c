import DvSpec.Library.Dict
import DvSpec.Types.Duty
import Mathlib.Data.List.Sort

/-!
# Round 2 of the FROST key generation

Every node broadcasts one bundle of casts, with a cast for each validator.  A bundle
is verified against the share index of its sender, and the casts of all bundles are
assembled into one share per validator.
-/

namespace DvSpec.Dkg

open DvSpec.Library

/-- The maximum value of an unsigned 32-bit integer. -/
def uint32Max : Nat := 4294967295

/-- The target of a broadcast. -/
def broadcastTargetId : Nat := 0

/-- Routing key identifying the validator, sender, and recipient. -/
structure FrostMsgKey where
  valIdx : Nat
  sourceId : Nat
  targetId : Nat
  valIdx_le : valIdx ≤ uint32Max := by decide
  sourceId_le : sourceId ≤ uint32Max := by decide
  targetId_le : targetId ≤ uint32Max := by decide
  deriving DecidableEq

/-- One validator's round 2 broadcast: the group and per-node public keys. -/
structure FrostRound2Cast where
  key : FrostMsgKey
  verificationKey : Bytes
  vkShare : Bytes
  deriving DecidableEq

/-- Round 2 broadcast bundle. -/
structure FrostRound2Casts where
  casts : List FrostRound2Cast := []

/-! ## Receiver-side validation -/

/-- Validate that a validator index addresses a validator in this ceremony. -/
def verifyValIdx (valIdx numValidators : Nat) (context : String) : Except PyError Unit :=
  if valIdx ≥ numValidators then .error (.valueError s!"invalid {context} validator index")
  else .ok ()

/-- Validate the routing key of a broadcast cast. -/
def verifyCastKey (key : FrostMsgKey) (senderShareIdx numValidators : Nat) (roundName : String) :
    Except PyError Unit :=
  if key.sourceId ≠ senderShareIdx then
    .error (.valueError s!"invalid {roundName} cast source ID")
  else if key.targetId ≠ broadcastTargetId then
    .error (.valueError s!"invalid {roundName} cast target ID")
  else verifyValIdx key.valIdx numValidators s!"{roundName} cast"

/-- Validate a received round 2 broadcast bundle. -/
def verifyRound2Casts (msg : FrostRound2Casts) (senderShareIdx numValidators : Nat) :
    Except PyError Unit :=
  forM msg.casts fun cast => verifyCastKey cast.key senderShareIdx numValidators "round 2"

/-! ## Output artifacts -/

/-- Mapping from share index to validator public key share bytes. -/
structure PublicShares where
  shares : Dict Nat Bytes := Dict.empty

/-- Resulting validator share after a successful key generation. -/
structure ValidatorShare where
  validatorPubkey : Bytes
  secretShare : Bytes
  publicShares : PublicShares

/-- `pub_shares.setdefault(cast.key.val_idx, {})[cast.key.source_id] = cast.vk_share` -/
def fileShare (pubShares : Dict Nat (Dict Nat Bytes)) (cast : FrostRound2Cast) :
    Dict Nat (Dict Nat Bytes) :=
  pubShares.set cast.key.valIdx
    (((pubShares.get? cast.key.valIdx).getD Dict.empty).set cast.key.sourceId cast.vkShare)

/-- The public shares of every validator, by share index. -/
def collectShares (round2Casts : List FrostRound2Cast) : Dict Nat (Dict Nat Bytes) :=
  round2Casts.foldl fileShare Dict.empty

/-- The artifact of one validator index, for which there must be local key material. -/
def buildShare (pubShares : Dict Nat (Dict Nat Bytes))
    (validatorPubkeys secretShares : Dict Nat Bytes) (valIdx : Nat) :
    Except PyError ValidatorShare :=
  match validatorPubkeys.get? valIdx, secretShares.get? valIdx with
  | some validatorPubkey, some secretShare =>
      .ok {
        validatorPubkey, secretShare
        publicShares := { shares := (pubShares.get? valIdx).getD Dict.empty } }
  | _, _ => .error (.valueError s!"missing local key material for validator index {valIdx}")

/-- Build the per-validator output artifacts from the round 2 broadcasts. -/
def assembleValidatorShares (round2Casts : List FrostRound2Cast)
    (validatorPubkeys secretShares : Dict Nat Bytes) : Except PyError (List ValidatorShare) :=
  let pubShares := collectShares round2Casts
  (pubShares.keys.insertionSort (· ≤ ·)).mapM
    (buildShare pubShares validatorPubkeys secretShares)

end DvSpec.Dkg
