import DvSpec.Crypto.ScalarField
import DvSpec.Library.Dict
import DvSpec.Library.Interpolation
import DvSpec.Types.Duty
import Mathlib.Algebra.Module.ZMod
import Mathlib.Data.Int.GCD
import Mathlib.Data.List.Dedup
import Mathlib.Data.List.Sort

/-!
# BLS threshold aggregation

Partial signatures and public shares are interpolated at zero over their share
indices.  The point arithmetic and the wire encoding of points belong to the
pairing library and enter as parameters.
-/

namespace DvSpec.Bls

open DvSpec.Library

/-- The points of one group of the pairing library, and their wire encoding. -/
structure Curve where
  Point : Type
  add : Point → Point → Point
  multiply : Point → Nat → Point
  decode : Bytes → Except PyError Point
  encode : Point → Bytes

/-- The two groups of the pairing library: public keys live in `G1`, signatures in `G2`. -/
class PyEcc where
  G1 : Curve
  G2 : Curve

/-! ## Coefficients -/

/-- `pow(value, -1, modulus)`, which raises when there is no inverse. -/
def modularInverse (value modulus : Nat) : Except PyError Nat :=
  if Nat.gcd value modulus = 1 then .ok (Nat.gcdA value modulus % modulus).toNat
  else .error (.valueError "base is not invertible for the given modulus")

/-- The loop over the other indices, with the product so far. -/
def coefficientLoop (index coefficient : Nat) : List Nat → Except PyError Nat
  | [] => .ok coefficient
  | other :: rest =>
      if other = index then coefficientLoop index coefficient rest
      else do
        let numerator := (-(other : Int) % blsModulus).toNat
        let denominator := (((index : Int) - other) % blsModulus).toNat
        let inverse ← modularInverse denominator blsModulus
        coefficientLoop index (coefficient * numerator * inverse % blsModulus) rest

/-- The Lagrange coefficient at zero of one share index among all of them. -/
def lagrangeCoefficient (index : Nat) (indices : List Nat) : Except PyError Nat :=
  if index ∉ indices then
    .error (.valueError s!"index {index} not among the aggregation indices")
  else if indices.dedup.length ≠ indices.length then
    .error (.valueError "duplicate share index among the aggregation indices")
  else if indices.any (fun other => decide (other < 1)) then
    .error (.valueError "share indices are 1-based and must be positive")
  else coefficientLoop index 1 indices

/-! ## Interpolation of points -/

section Interpolation

variable (curve : Curve)

/-- `lambda_i * P_i` for one entry of the points. -/
def weightedPoint (indices : List Nat) (entry : Nat × curve.Point) :
    Except PyError curve.Point := do
  let coefficient ← lagrangeCoefficient entry.1 indices
  return curve.multiply entry.2 coefficient

/-- Add the remaining weighted points to the total. -/
def addWeighted (indices : List Nat) (total : curve.Point) :
    List (Nat × curve.Point) → Except PyError curve.Point
  | [] => .ok total
  | entry :: rest => do
      let term ← weightedPoint curve indices entry
      addWeighted indices (curve.add total term) rest

/-- Sum `lambda_i * P_i` over the given points in ascending order of index. -/
def interpolateAtZero (pointsByIndex : Dict Nat curve.Point) : Except PyError curve.Point :=
  let sorted := pointsByIndex.entries.insertionSort fun one two => one.1 ≤ two.1
  match sorted with
  | [] => .error (.valueError "no points to interpolate")
  | first :: rest => do
      let term ← weightedPoint curve (sorted.map Prod.fst) first
      addWeighted curve (sorted.map Prod.fst) term rest

/-- Decode the shares, interpolate them at zero and encode the result. -/
def interpolateEncoded (encodedByIndex : Dict Nat Bytes) : Except PyError Bytes := do
  let points ← encodedByIndex.entries.mapM fun entry => do
    let point ← curve.decode entry.2
    return (entry.1, point)
  let total ← interpolateAtZero curve (Dict.ofEntries points)
  return curve.encode total

end Interpolation

section

variable [PyEcc]

/-- Reconstruct the validator's signature from partial signatures by share index. -/
def thresholdAggregate (signaturesByShareIdx : Dict Nat Bytes) : Except PyError Bytes :=
  interpolateEncoded PyEcc.G2 signaturesByShareIdx

/-- Recover the validator's public key from public shares by share index. -/
def recoverPubkey (pubsharesByShareIdx : Dict Nat Bytes) : Except PyError Bytes :=
  interpolateEncoded PyEcc.G1 pubsharesByShareIdx

end

end DvSpec.Bls
