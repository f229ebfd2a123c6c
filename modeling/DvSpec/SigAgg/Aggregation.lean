import DvSpec.Crypto.Bls
import DvSpec.SigAgg.Threshold

/-!
# Inputs of the aggregation

A partial signature is verified against the public share of its index.  Every share
index weighs in with its Lagrange coefficient.  The selected signatures are keyed by
share index, and the number of keys is checked again: a repeated share index does not
count twice.
-/

namespace DvSpec.SigAgg

open DvSpec.Library

/-- Resolve the public share a partial signature must verify against. -/
def verifyShareIdx (shareIdx : Nat) (publicShares : Dict Nat Bytes) : Except PyError Bytes :=
  match publicShares.get? shareIdx with
  | none => .error (.valueError s!"invalid shareIdx {shareIdx}")
  | some pubshare => .ok pubshare

/-- The Lagrange coefficient of every participating share index. -/
def aggregationCoefficients (indices : List Nat) : Except PyError (Dict Nat Nat) := do
  let coefficients ← indices.mapM fun index => do
    let coefficient ← Bls.lagrangeCoefficient index indices
    return (index, coefficient)
  return Dict.ofEntries coefficients

/-- The signatures keyed by share index, provided at least `threshold` shares signed. -/
def selectAggregationInputs (sigs : List PartialSignature) (threshold : Nat) :
    Except PyError (Dict Nat Bytes) :=
  if sigs.length < threshold then .error (.valueError "require threshold signatures")
  else
    let byShareIdx := Dict.ofEntries (sigs.map fun sig => (sig.shareIdx, sig.signature))
    if byShareIdx.size < threshold then
      .error (.valueError (s!"number of partial signatures less than threshold: " ++
        s!"threshold {threshold}, got {byShareIdx.size}"))
    else .ok byShareIdx

theorem verifyShareIdx_eq_ok_iff {publicShares : Dict Nat Bytes} {shareIdx : Nat}
    {pubshare : Bytes} :
    verifyShareIdx shareIdx publicShares = .ok pubshare ↔
      publicShares.get? shareIdx = some pubshare := by
  unfold verifyShareIdx
  cases publicShares.get? shareIdx with
  | none => simp
  | some stored => simp

/-- Signatures of distinct shares are all kept, each under its share index. -/
theorem selectAggregationInputs_of_distinct {sigs : List PartialSignature} {threshold : Nat}
    (distinct : (shares sigs).Nodup) (enough : threshold ≤ sigs.length) :
    ∃ inputs, selectAggregationInputs sigs threshold = .ok inputs ∧
      inputs.size = sigs.length ∧
      ∀ sig ∈ sigs, inputs.get? sig.shareIdx = some sig.signature := by
  have entries : (Dict.ofEntries (sigs.map fun sig => (sig.shareIdx, sig.signature))).entries =
      sigs.map fun sig => (sig.shareIdx, sig.signature) := by
    apply Dict.entries_ofEntries
    rw [List.map_map]
    exact distinct
  have size : (Dict.ofEntries (sigs.map fun sig => (sig.shareIdx, sig.signature))).size =
      sigs.length := by
    rw [Dict.size, entries, List.length_map]
  refine ⟨_, ?_, size, ?_⟩
  · rw [selectAggregationInputs, if_neg (Nat.not_lt_of_le enough)]
    exact if_neg (Nat.not_lt_of_le (size ▸ enough))
  · intro sig member
    rw [← Dict.mem_entries_iff, entries]
    exact List.mem_map.mpr ⟨sig, member, rfl⟩

end DvSpec.SigAgg
