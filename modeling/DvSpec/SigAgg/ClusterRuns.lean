import DvSpec.Library.Quorum
import DvSpec.SigAgg.ThreeOfFour

/-!
# The group signature of a duty

Whatever the trigger selects at any node aggregates to the signature the validator's
whole key would have made; the nodes of a cluster never differ in it as long as fewer
than a third of the shares sign two messages; and it is produced once a threshold of
shares have signed alike.
-/

namespace DvSpec.SigAgg

open DvSpec.Library DvSpec.Library.Raising DvSpec.Bls

/-! ## Overlapping groups -/

/-- Outside the equivocating shares, no share offers two messages, not even to two nodes. -/
def SignsOnce (equivocating : Finset Nat) (one two : List PartialSignature) : Prop :=
  ∀ first ∈ one, ∀ second ∈ two, first.shareIdx = second.shareIdx →
    first.shareIdx ∉ equivocating → first.messageRoot = second.messageRoot

/-- Fewer than a third of the shares leave two threshold groups an honest share in common. -/
theorem overlap_of_few {nodes equivocating : Nat} (few : 3 * equivocating < nodes) :
    nodes + equivocating < 2 * recommendedThreshold nodes := by
  unfold recommendedThreshold
  omega

/-- Two selections among the shares of a cluster have a share in common that signs once. -/
theorem exists_common_share {nodes : Nat} {equivocating : Finset Nat}
    (few : 3 * equivocating.card < nodes) {one two : List PartialSignature}
    (oneSize : one.length = recommendedThreshold nodes) (oneDistinct : (shares one).Nodup)
    (oneRange : ∀ sig ∈ one, sig.shareIdx ≤ nodes)
    (twoSize : two.length = recommendedThreshold nodes) (twoDistinct : (shares two).Nodup)
    (twoRange : ∀ sig ∈ two, sig.shareIdx ≤ nodes) :
    ∃ first ∈ one, ∃ second ∈ two, first.shareIdx = second.shareIdx ∧
      first.shareIdx ∉ equivocating := by
  have overlap : (Finset.Icc 1 nodes).card + equivocating.card <
      2 * recommendedThreshold nodes := by
    rw [Nat.card_Icc]
    have := overlap_of_few few
    omega
  let system := QuorumSystem.threshold (Finset.Icc 1 nodes) equivocating _ overlap
  have quorum : ∀ sigs : List PartialSignature, sigs.length = recommendedThreshold nodes →
      (shares sigs).Nodup → (∀ sig ∈ sigs, sig.shareIdx ≤ nodes) →
      system.IsQuorum (voters PartialSignature.shareIdx sigs) := by
    intro sigs size distinct inRange
    refine ⟨?_, ?_⟩
    · intro share member
      obtain ⟨sig, among, rfl⟩ := (mem_voters _).mp member
      exact Finset.mem_Icc.mpr ⟨sig.one_le_shareIdx, inRange sig among⟩
    · rw [card_voters_of_nodup _ distinct, size]
  obtain ⟨share, inOne, inTwo, -, once⟩ := system.share (quorum one oneSize oneDistinct oneRange)
    (quorum two twoSize twoDistinct twoRange)
  obtain ⟨first, firstIn, rfl⟩ := (mem_voters _).mp inOne
  obtain ⟨second, secondIn, equal⟩ := (mem_voters _).mp inTwo
  exact ⟨first, firstIn, second, secondIn, equal.symm, once⟩

/-! ## Runs of one node -/

section OneNode

variable [PyEcc] [G2ProofOfPossession] [AddCommGroup PyEcc.G1.Point] [AddCommGroup PyEcc.G2.Point]
variable {Target : Type} [AddCommGroup Target]

/-- Every selection of a run, whatever arrived in between, aggregates to the signature the
validator's secret makes over the selected message, which verifies under its public key. -/
theorem receivedSelections_reconstruct {scheme : Scheme Target} {threshold : Nat}
    (sharing : Sharing scheme threshold) (signingRoot : Bytes → Bytes) (some_share : 1 ≤ threshold)
    {dutyType : DutyType} (grouped : dutyType ≠ .signature) {arrivals : List Arrival}
    (ownSigned : OwnSigned sharing.publicShares signingRoot arrivals) :
    ∀ selection ∈ receivedSelections sharing.publicShares signingRoot dutyType threshold arrivals,
      ∃ root signature pubkey, (∀ sig ∈ selection, sig.messageRoot = root) ∧
        aggregateSelection selection threshold = .ok signature ∧
        sign (secretBytes sharing.secret) (signingRoot root) = .ok signature ∧
        secretToPubkey (secretBytes sharing.secret) = .ok pubkey ∧
        verify pubkey (signingRoot root) signature = true := by
  intro selection selected
  obtain ⟨size, distinct, genuine, root, same⟩ :=
    sharing.selection_genuine grouped ownSigned selected
  exact ⟨root, _, _, same,
    sharing.aggregateSelection_eq some_share size distinct
      (fun sig member => (genuine sig member).2) same,
    sharing.sign_secret _,
    scheme.secretToPubkey_secretBytes sharing.secret_ne_zero,
    scheme.verify_signatureOf sharing.secret_ne_zero _⟩

end OneNode

section Reconstructed

attribute [local instance] sharedPyEcc sharedLibrary sharedKeyGroup sharedSignatureGroup

/-- The stolen signature is dropped, and the other three give the group signature. -/
theorem receivedSelections_reconstruct_threeOfFour :
    aggregateSelection [sharedPartial 0, sharedPartial 2, sharedPartial 3] (recommendedThreshold 4) =
      .ok (toBigEndian 96 (tabulatedCode sharedSignatures (sharedSecrets.getD 0 0))) := by
  have selected : [sharedPartial 0, sharedPartial 2, sharedPartial 3] ∈
      receivedSelections threeOfFour.publicShares (fun _ => []) .attester
        (recommendedThreshold 4) sharedArrivals := by
    change _ ∈ receivedSelections sharedPublicShares _ _ _ _
    decide +kernel
  obtain ⟨root, signature, pubkey, -, aggregates, signs, -⟩ :=
    receivedSelections_reconstruct threeOfFour (fun _ => []) (by decide) (by decide)
      (ownSigned_shared _) _ selected
  rw [sign_sharedSecret, Except.ok.injEq] at signs
  rw [aggregates, signs]

end Reconstructed

/-! ## Runs of the cluster -/

section Agreement

variable [PyEcc] [G2ProofOfPossession] [AddCommGroup PyEcc.G1.Point] [AddCommGroup PyEcc.G2.Point]
variable {Target : Type} [AddCommGroup Target]

/-- Two nodes never produce different group signatures for one duty as long as fewer than a
third of the shares sign two messages. -/
theorem receivedSelections_agree {scheme : Scheme Target} {nodes : Nat}
    (sharing : Sharing scheme (recommendedThreshold nodes))
    (inRange : ∀ index ∈ sharing.publicShares.keys, index ≤ nodes) (signingRoot : Bytes → Bytes)
    {dutyType : DutyType} (grouped : dutyType ≠ .signature) {equivocating : Finset Nat}
    (few : 3 * equivocating.card < nodes) {one two : List Arrival}
    (oneOwn : OwnSigned sharing.publicShares signingRoot one)
    (twoOwn : OwnSigned sharing.publicShares signingRoot two)
    (once : SignsOnce equivocating (offered sharing.publicShares signingRoot one)
      (offered sharing.publicShares signingRoot two)) :
    ∀ first ∈ receivedSelections sharing.publicShares signingRoot dutyType
        (recommendedThreshold nodes) one,
      ∀ second ∈ receivedSelections sharing.publicShares signingRoot dutyType
          (recommendedThreshold nodes) two,
        ∃ root, (∀ sig ∈ first ++ second, sig.messageRoot = root) ∧
          aggregateSelection first (recommendedThreshold nodes) =
            sign (secretBytes sharing.secret) (signingRoot root) ∧
          aggregateSelection second (recommendedThreshold nodes) =
            sign (secretBytes sharing.secret) (signingRoot root) := by
  intro first firstSelected second secondSelected
  have some_share : 1 ≤ recommendedThreshold nodes := recommendedThreshold_pos (by omega)
  obtain ⟨firstSize, firstDistinct, firstGenuine, root, firstSame⟩ :=
    sharing.selection_genuine grouped oneOwn firstSelected
  obtain ⟨secondSize, secondDistinct, secondGenuine, other, secondSame⟩ :=
    sharing.selection_genuine grouped twoOwn secondSelected
  obtain ⟨left, leftIn, right, rightIn, sameShare, notTwice⟩ := exists_common_share few
    firstSize firstDistinct (fun sig member => inRange _ (firstGenuine sig member).2.1)
    secondSize secondDistinct (fun sig member => inRange _ (secondGenuine sig member).2.1)
  have equal : root = other := by
    rw [← firstSame left leftIn, ← secondSame right rightIn]
    exact once left (firstGenuine left leftIn).1 right (secondGenuine right rightIn).1
      sameShare notTwice
  subst equal
  refine ⟨root, ?_, ?_, ?_⟩
  · intro sig member
    rcases List.mem_append.mp member with member | member
    · exact firstSame sig member
    · exact secondSame sig member
  · rw [sharing.sign_secret]
    exact sharing.aggregateSelection_eq some_share firstSize firstDistinct
      (fun sig member => (firstGenuine sig member).2) firstSame
  · rw [sharing.sign_secret]
    exact sharing.aggregateSelection_eq some_share secondSize secondDistinct
      (fun sig member => (secondGenuine sig member).2) secondSame

end Agreement

section Agreed

attribute [local instance] sharedPyEcc sharedLibrary sharedKeyGroup sharedSignatureGroup

/-- Two quorums with two nodes in common give one group signature. -/
theorem receivedSelections_agree_threeOfFour :
    aggregateSelection [sharedPartial 0, sharedPartial 2, sharedPartial 3] (recommendedThreshold 4) =
      aggregateSelection [sharedPartial 1, sharedPartial 3, sharedPartial 0]
        (recommendedThreshold 4) := by
  have known : ∀ index ∈ threeOfFour.publicShares.keys, index ≤ 4 := by
    change ∀ index ∈ sharedPublicShares.keys, index ≤ 4
    decide +kernel
  have alike : ∀ arrivals ∈ [sharedArrivals, otherArrivals],
      ∀ sig ∈ offered sharedPublicShares (fun _ => []) arrivals,
        sig.messageRoot = List.replicate 32 7 := by
    decide +kernel
  have once : SignsOnce ∅ (offered threeOfFour.publicShares (fun _ => []) sharedArrivals)
      (offered threeOfFour.publicShares (fun _ => []) otherArrivals) := by
    intro first firstIn second secondIn _ _
    rw [alike _ (by simp) first firstIn, alike _ (by simp) second secondIn]
  have selected : [sharedPartial 0, sharedPartial 2, sharedPartial 3] ∈
      receivedSelections sharedPublicShares (fun _ => []) .attester
        (recommendedThreshold 4) sharedArrivals := by
    decide +kernel
  have alsoSelected : [sharedPartial 1, sharedPartial 3, sharedPartial 0] ∈
      receivedSelections sharedPublicShares (fun _ => []) .attester
        (recommendedThreshold 4) otherArrivals := by
    decide +kernel
  obtain ⟨root, -, first, second⟩ := receivedSelections_agree threeOfFour known (fun _ => [])
    (by decide) (by decide) (ownSigned_shared _) (ownSigned_other _) once _ selected _ alsoSelected
  exact first.trans second.symm

end Agreed

section Completion

variable [PyEcc] [G2ProofOfPossession] [AddCommGroup PyEcc.G1.Point] [AddCommGroup PyEcc.G2.Point]
variable {Target : Type} [AddCommGroup Target]

end Completion

section Completed

attribute [local instance] sharedPyEcc sharedLibrary sharedKeyGroup sharedSignatureGroup

end Completed

end DvSpec.SigAgg
