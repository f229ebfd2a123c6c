import DvSpec.Crypto.Signing
import DvSpec.SigAgg.GroupSignature
import DvSpec.SigAgg.Selection

/-!
# From partial signatures to the group signature

Peers' partial signatures are verified against the public share of their index before
they are stored; a node trusts its own.  Over a shared key everything stored is then the
signature its share makes, so what the trigger selects interpolates to the signature of
the secret.
-/

namespace DvSpec.SigAgg

open DvSpec.Library DvSpec.Library.Raising DvSpec.Library.Interpolation DvSpec.Bls Polynomial

/-- A partial signature reaches the store from the node itself or from a peer. -/
inductive Arrival where
  | own (sig : PartialSignature)
  | received (sig : PartialSignature)
  deriving DecidableEq

section Receiving

variable [G2ProofOfPossession] (publicShares : Dict Nat Bytes) (signingRoot : Bytes → Bytes)

/-- Verify a received partial signature under the public share of its index. -/
def verifyPartialSignature (sig : PartialSignature) : Except PyError Bool := do
  let pubshare ← verifyShareIdx sig.shareIdx publicShares
  return verify pubshare (signingRoot sig.messageRoot) sig.signature

/-- A partial signature is made with the key share behind the public share of its index. -/
def SignedByShare (sig : PartialSignature) : Prop :=
  ∃ secret pubshare, verifyShareIdx sig.shareIdx publicShares = .ok pubshare ∧
    secretToPubkey secret = .ok pubshare ∧
    sign secret (signingRoot sig.messageRoot) = .ok sig.signature

/-- The partial signature an arrival offers to the store. -/
def admitted : Arrival → Option PartialSignature
  | .own sig => some sig
  | .received sig =>
      if verifyPartialSignature publicShares signingRoot sig = .ok true then some sig else none

/-- Verify an arrival, store it and evaluate the trigger. -/
def receive (dutyType : DutyType) (threshold : Nat) (stored : List PartialSignature)
    (arrival : Arrival) : Option (List PartialSignature) × List PartialSignature :=
  match admitted publicShares signingRoot arrival with
  | some sig => deposit dutyType threshold stored sig
  | none => (none, stored)

/-- The node's own partial signatures are made with key shares of the validator. -/
def OwnSigned (arrivals : List Arrival) : Prop :=
  ∀ sig, Arrival.own sig ∈ arrivals → SignedByShare publicShares signingRoot sig

/-- The selections made while the arrivals come in. -/
def receivedSelections (dutyType : DutyType) (threshold : Nat) (arrivals : List Arrival) :
    List (List PartialSignature) :=
  (Machine.outputs (receive publicShares signingRoot dutyType threshold) [] arrivals).filterMap id

/-- The signatures offered to the store. -/
def offered (arrivals : List Arrival) : List PartialSignature :=
  arrivals.filterMap (admitted publicShares signingRoot)

/-- The arrivals select what the admitted signatures select. -/
theorem receivedSelections_eq (dutyType : DutyType) (threshold : Nat) (arrivals : List Arrival) :
    receivedSelections publicShares signingRoot dutyType threshold arrivals =
      selections dutyType threshold [] (offered publicShares signingRoot arrivals) := by
  unfold receivedSelections offered selections
  generalize ([] : List PartialSignature) = stored
  induction arrivals generalizing stored with
  | nil => rfl
  | cons arrival rest ih =>
      rw [Machine.outputs, receive]
      cases offer : admitted publicShares signingRoot arrival with
      | none =>
          rw [List.filterMap_cons_none (by rfl), List.filterMap_cons_none offer]
          exact ih stored
      | some sig =>
          rw [List.filterMap_cons_some offer, Machine.outputs]
          simp only [List.filterMap_cons, ih]

end Receiving

/-! ## Selected signatures -/

theorem mem_of_mem_selections {dutyType : DutyType} {threshold : Nat}
    {sigs selection : List PartialSignature}
    (selected : selection ∈ selections dutyType threshold [] sigs) :
    ∀ sig ∈ selection, sig ∈ firstArrivals [] sigs := by
  intro sig member
  rw [selections_eq] at selected
  obtain ⟨earlier, last, later, decomposed, chosen⟩ := mem_triggers.mp selected
  rw [decomposed, List.append_cons]
  exact List.mem_append_left _ ((sublist_of_select chosen).subset member)

/-- Signatures of distinct shares are keyed by exactly these shares. -/
theorem keys_selectAggregationInputs {sigs : List PartialSignature} {threshold : Nat}
    (distinct : (shares sigs).Nodup) (enough : threshold ≤ sigs.length) :
    ∃ inputs, selectAggregationInputs sigs threshold = .ok inputs ∧
      inputs.keys.Perm (shares sigs) ∧
      ∀ sig ∈ sigs, inputs.get? sig.shareIdx = some sig.signature := by
  obtain ⟨inputs, accepted, size, stored⟩ := selectAggregationInputs_of_distinct distinct enough
  refine ⟨inputs, accepted, ?_, stored⟩
  have included : shares sigs ⊆ inputs.keys := by
    intro share member
    obtain ⟨sig, among, rfl⟩ := List.mem_map.mp member
    exact (Dict.mem_keys_iff _ _).mpr ⟨_, stored sig among⟩
  have sameLength : inputs.keys.length = (shares sigs).length := by
    rw [shares, List.length_map, ← size, Dict.keys, List.length_map, Dict.size]
  exact ((distinct.subperm included).perm_of_length_le (Nat.le_of_eq sameLength)).symm

/-- Shares that decode to one point's multiples by a polynomial's values interpolate to the
multiple by its value at zero. -/
theorem interpolateEncoded_decodable {curve : Curve} [AddCommGroup curve.Point]
    (lawful : curve.Lawful) {f : (ZMod blsModulus)[X]} {indices : List Nat}
    (valid : ShareIndices indices) (degree : f.degree < indices.length) (nonempty : indices ≠ [])
    {point : curve.Point} {encoded : Dict Nat Bytes} (keys : encoded.keys.Perm indices)
    (decodes : ∀ index ∈ indices, ∃ data, encoded.get? index = some data ∧
      curve.decode data = .ok (curve.multiply point (f.eval (scalar index)).val)) :
    interpolateEncoded curve encoded =
      .ok (curve.encode (curve.multiply point (f.eval 0).val)) := by
  let scalars := lawful.module
  have size : indices.toFinset.card = indices.length :=
    List.toFinset_card_of_nodup valid.distinct
  have multiples : ∀ index ∈ indices, ∃ data, encoded.get? index = some data ∧
      curve.decode data = .ok (f.eval (scalar index) • point) := by
    intro index member
    obtain ⟨data, stored, decoded⟩ := decodes index member
    rw [multiply_val lawful] at decoded
    exact ⟨data, stored, decoded⟩
  rw [interpolateEncoded_spec lawful valid keys nonempty multiples,
    combine_eval_smul valid.injective (size ▸ degree), multiply_val lawful]

/-! ## Shared keys -/

/-- Key the selected signatures by share and aggregate them into the group signature. -/
def aggregateSelection [PyEcc] (selection : List PartialSignature) (threshold : Nat) :
    Except PyError Bytes := do
  let inputs ← selectAggregationInputs selection threshold
  thresholdAggregate inputs

section Sharing

variable [PyEcc] [G2ProofOfPossession] [AddCommGroup PyEcc.G1.Point] [AddCommGroup PyEcc.G2.Point]
variable {Target : Type} [AddCommGroup Target]

/-- A validator's key as the nodes share it: the public shares decode to the keys of a
polynomial's values at the share indices, and the value at zero is the secret. -/
structure Sharing (scheme : Scheme Target) (threshold : Nat) where
  polynomial : (ZMod blsModulus)[X]
  publicShares : Dict Nat Bytes
  degree_lt : polynomial.degree < threshold
  secret_ne_zero : polynomial.eval 0 ≠ 0
  positive : ∀ index ∈ publicShares.keys, 1 ≤ index
  below : ∀ index ∈ publicShares.keys, index < blsModulus
  keyOf : ∀ index pubshare, publicShares.get? index = some pubshare →
    scheme.KeyOf (polynomial.eval (scalar index)) pubshare

namespace Sharing

variable {scheme : Scheme Target} {threshold : Nat}

/-- The key share of one share index. -/
def share (sharing : Sharing scheme threshold) (index : Nat) : ZMod blsModulus :=
  sharing.polynomial.eval (scalar index)

/-- The secret key nobody holds. -/
def secret (sharing : Sharing scheme threshold) : ZMod blsModulus := sharing.polynomial.eval 0

/-- A partial signature is the one its share makes over its message. -/
def Genuine (sharing : Sharing scheme threshold) (signingRoot : Bytes → Bytes)
    (sig : PartialSignature) : Prop :=
  sig.shareIdx ∈ sharing.publicShares.keys ∧
    scheme.SignatureOf (sharing.share sig.shareIdx) (signingRoot sig.messageRoot) sig.signature

variable (sharing : Sharing scheme threshold) {signingRoot : Bytes → Bytes}

theorem sign_secret (message : Bytes) :
    sign (secretBytes sharing.secret) message =
      .ok (scheme.signatureOf sharing.secret message) :=
  scheme.sign_secretBytes sharing.secret_ne_zero message

/-- What a key share signs is genuine, and the share is not zero. -/
theorem genuine_of_signed {sig : PartialSignature}
    (signed : SignedByShare sharing.publicShares signingRoot sig) :
    sharing.share sig.shareIdx ≠ 0 ∧ sharing.Genuine signingRoot sig := by
  obtain ⟨secret, pubshare, resolved, derived, signs⟩ := signed
  have stored := verifyShareIdx_eq_ok_iff.mp resolved
  obtain ⟨nonzero, key⟩ := scheme.keyOf_of_secretToPubkey derived
  have equal : secretScalar secret = sharing.share sig.shareIdx :=
    scheme.keyOf_unique key (sharing.keyOf _ _ stored)
  refine ⟨equal ▸ nonzero, (Dict.mem_keys_iff _ _).mpr ⟨pubshare, stored⟩, ?_⟩
  exact equal ▸ scheme.signatureOf_of_sign signs

/-- A received partial signature verifies iff it is genuine and its share is not zero. -/
theorem verifyPartialSignature_iff {sig : PartialSignature} :
    verifyPartialSignature sharing.publicShares signingRoot sig = .ok true ↔
      sharing.share sig.shareIdx ≠ 0 ∧ sharing.Genuine signingRoot sig := by
  rw [verifyPartialSignature, bind_eq_ok_iff, Genuine]
  simp only [verifyShareIdx_eq_ok_iff, pure, Except.pure, Except.ok.injEq]
  constructor
  · rintro ⟨pubshare, stored, verifies⟩
    have spec := (scheme.verify_iff_signatureOf (sharing.keyOf _ _ stored)).mp verifies
    exact ⟨spec.1, (Dict.mem_keys_iff _ _).mpr ⟨pubshare, stored⟩, spec.2⟩
  · rintro ⟨nonzero, known, signature⟩
    obtain ⟨pubshare, stored⟩ := (Dict.mem_keys_iff _ _).mp known
    exact ⟨pubshare, stored,
      (scheme.verify_iff_signatureOf (sharing.keyOf _ _ stored)).mpr ⟨nonzero, signature⟩⟩

/-- Everything offered to the store is genuine. -/
theorem genuine_of_offered {arrivals : List Arrival}
    (ownSigned : OwnSigned sharing.publicShares signingRoot arrivals) :
    ∀ sig ∈ offered sharing.publicShares signingRoot arrivals, sharing.Genuine signingRoot sig := by
  intro sig member
  obtain ⟨arrival, arrived, admits⟩ := List.mem_filterMap.mp member
  cases arrival with
  | own made =>
      cases admits
      exact (sharing.genuine_of_signed (ownSigned sig arrived)).2
  | received sent =>
      rw [admitted] at admits
      split at admits
      · cases admits
        exact (sharing.verifyPartialSignature_iff.mp ‹_›).2
      · cases admits

/-- Genuine signatures of `threshold` distinct shares over one message aggregate to the
signature of the secret. -/
theorem aggregateSelection_eq {selection : List PartialSignature} {root : Bytes}
    (some_share : 1 ≤ threshold) (size : selection.length = threshold)
    (distinct : (shares selection).Nodup)
    (genuine : ∀ sig ∈ selection, sharing.Genuine signingRoot sig)
    (same : ∀ sig ∈ selection, sig.messageRoot = root) :
    aggregateSelection selection threshold =
      .ok (scheme.signatureOf sharing.secret (signingRoot root)) := by
  obtain ⟨inputs, accepted, keys, stored⟩ :=
    keys_selectAggregationInputs distinct (Nat.le_of_eq size.symm)
  have length : (shares selection).length = threshold := by
    rw [shares, List.length_map, size]
  have known : ∀ index ∈ shares selection, index ∈ sharing.publicShares.keys := by
    intro index member
    obtain ⟨sig, among, rfl⟩ := List.mem_map.mp member
    exact (genuine sig among).1
  have valid : ShareIndices (shares selection) :=
    ⟨distinct, fun index member => sharing.positive index (known index member),
      fun index member => sharing.below index (known index member)⟩
  have nonempty : shares selection ≠ [] := by
    intro empty
    rw [empty, List.length_nil] at length
    omega
  rw [aggregateSelection, accepted, ok_bind, thresholdAggregate]
  refine interpolateEncoded_decodable scheme.g2 valid ?_ nonempty keys ?_
  · rw [length]
    exact sharing.degree_lt
  · intro index member
    obtain ⟨sig, among, rfl⟩ := List.mem_map.mp member
    refine ⟨sig.signature, stored sig among, ?_⟩
    have decoded := (genuine sig among).2
    rwa [same sig among, Scheme.SignatureOf] at decoded

/-- A selection of a run is genuine, of distinct shares and over one message root. -/
theorem selection_genuine {dutyType : DutyType} (grouped : dutyType ≠ .signature)
    {arrivals : List Arrival} (ownSigned : OwnSigned sharing.publicShares signingRoot arrivals)
    {selection : List PartialSignature}
    (selected : selection ∈
      receivedSelections sharing.publicShares signingRoot dutyType threshold arrivals) :
    selection.length = threshold ∧ (shares selection).Nodup ∧
      (∀ sig ∈ selection, sig ∈ offered sharing.publicShares signingRoot arrivals ∧
        sharing.Genuine signingRoot sig) ∧
      ∃ root, ∀ sig ∈ selection, sig.messageRoot = root := by
  rw [receivedSelections_eq] at selected
  obtain ⟨size, distinct⟩ := exact_of_mem_selections selected
  refine ⟨size, distinct, ?_, ?_⟩
  · intro sig member
    have among := firstArrivals_subset [] _ (mem_of_mem_selections selected sig member)
    exact ⟨among, sharing.genuine_of_offered ownSigned sig among⟩
  · rw [selections_eq] at selected
    obtain ⟨root, -, same⟩ := root_of_mem_triggers grouped selected
    exact ⟨root, same⟩

end Sharing

end Sharing

end DvSpec.SigAgg
