import DvSpec.Cluster.Lock
import DvSpec.Crypto.Bls

/-!
# Verifying the public shares of a lock

Every validator's public shares must interpolate to its group public key: the
first quorum, and the first quorum with its last member replaced by each further
share in turn.
-/

namespace DvSpec.Cluster

open DvSpec.Library DvSpec.Bls

/-- `shares[position]` under its 1-based index; the callers' positions are in range. -/
def shareEntry (shares : List Bytes) (position : Nat) : Nat × Bytes :=
  (position + 1, shares.getD position [])

/-- The shares at the given positions. -/
def sharesAt (shares : List Bytes) (positions : List Nat) : Dict Nat Bytes :=
  Dict.ofEntries (positions.map (shareEntry shares))

/-- The first `threshold - 1` shares and the share at a further position. -/
def substitutedShares (shares : List Bytes) (threshold position : Nat) : Dict Nat Bytes :=
  (sharesAt shares (List.range (threshold - 1))).set (position + 1) (shareEntry shares position).2

variable [PyEcc]

/-- One pass of the loop over the validators. -/
def verifyValidatorShares (threshold index : Nat) (validator : DistValidator) :
    Except PyError Unit :=
  let shares := validator.pubshares
  if threshold < 1 ∨ shares.length < threshold then
    .error (.valueError
      s!"validator {index} has threshold {threshold} for {shares.length} shares")
  else do
    let recovered ← recoverPubkey (sharesAt shares (List.range threshold))
    if recovered ≠ validator.pubkey then
      .error (.valueError
        s!"validator {index}: public shares do not reconstruct the group public key")
    else forM (List.range' threshold (shares.length - threshold)) fun position => do
      let recovered ← recoverPubkey (substitutedShares shares threshold position)
      if recovered ≠ validator.pubkey then
        .error (.valueError (s!"validator {index}: share {position + 1} does not lie on the " ++
          "group key's polynomial"))
      else .ok ()

/-- Check each validator's public shares lie on its group key's polynomial. -/
def verifySharesReconstruct (lock : Lock) : Except PyError Unit :=
  forM lock.validators.zipIdx fun entry => verifyValidatorShares lock.threshold entry.2 entry.1

end DvSpec.Cluster
