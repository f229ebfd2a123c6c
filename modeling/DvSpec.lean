import DvSpec.Library.Machine
import DvSpec.Library.Quorum
import DvSpec.Consensus.VoteRounds
import DvSpec.Consensus.Justification
import DvSpec.Consensus.Acceptance
import DvSpec.Consensus.Certificates
import DvSpec.Consensus.DutyIsolation
import DvSpec.Consensus.Equivocation
import DvSpec.Consensus.Limits
import DvSpec.Consensus.Ledger
import DvSpec.Consensus.Cluster
import DvSpec.Consensus.Agreement
import DvSpec.Consensus.Network
import DvSpec.Consensus.Traffic
import DvSpec.Consensus.ValueLock
import DvSpec.Consensus.HappyPath
import DvSpec.SigAgg.Threshold
import DvSpec.SigAgg.Trigger
import DvSpec.SigAgg.Aggregation
import DvSpec.SigAgg.Selection
import DvSpec.Crypto.ScalarField
import DvSpec.Crypto.Bls
import DvSpec.Library.Interpolation
import DvSpec.Crypto.Reconstruction
import DvSpec.Library.Raising
import DvSpec.SigAgg.GroupSignature
import DvSpec.Cluster.Definition
import DvSpec.Cluster.Lock
import DvSpec.Cluster.Verification
import DvSpec.Cluster.ShareReconstruction
import DvSpec.Library.PrefixCode
import DvSpec.Encoding.Parsing
import DvSpec.Library.HashTree
import DvSpec.Encoding.MerkleTree
import DvSpec.Encoding.DataSet
import DvSpec.Consensus.SigningRoot
import DvSpec.Library.Admission
import DvSpec.Consensus.Resends
import DvSpec.Consensus.Crashes
import DvSpec.Consensus.Decision
import DvSpec.Consensus.Rebroadcast
import DvSpec.Consensus.LostDecision
import DvSpec.Encoding.HashWalker
import DvSpec.Encoding.SszValue
import DvSpec.Encoding.Walk
import DvSpec.Types.Hex
import DvSpec.Cluster.Hashing
import DvSpec.Crypto.Sha256
import DvSpec.Cluster.HashRoots
import DvSpec.Cluster.HashBinding
import DvSpec.Priority.Message
import DvSpec.Priority.Scoring
import DvSpec.Priority.Validation
import DvSpec.Priority.Counting
import DvSpec.Priority.MessageOrder
import DvSpec.Priority.Support
import DvSpec.Priority.Dominance
import DvSpec.Consensus.Emission
import DvSpec.Consensus.RoundChangeQuorum
import DvSpec.InfoSync.Results
import DvSpec.ParSigEx.SenderBinding
import DvSpec.Consensus.FieldRequirements
import DvSpec.Consensus.ValueCarriage
import DvSpec.Encoding.FullTree
import DvSpec.Library.Arrival
import DvSpec.Priority.Ranking
import DvSpec.Priority.Specification
import DvSpec.Consensus.RoundScan
import DvSpec.Consensus.RoundSupport
import DvSpec.Library.Fields
import DvSpec.Consensus.Construction
import DvSpec.ReliableBcast.PayloadHash
import DvSpec.Dkg.Frost
import DvSpec.Dkg.ShareAssembly
import DvSpec.Dkg.ShareOrder
import DvSpec.Dkg.Protocols
import DvSpec.Dkg.ShareIndices
import DvSpec.Consensus.Timer
import DvSpec.Consensus.Deadlines
import DvSpec.Consensus.QuorumArithmetic
import DvSpec.Encoding.Varint
import DvSpec.Library.Regex
import DvSpec.PeerInfo.GitHash
import DvSpec.Types.IntLiteral
import DvSpec.PeerInfo.Version
import DvSpec.PeerInfo.VersionGrammar
import DvSpec.Library.JsonText
import DvSpec.Cluster.Files
import DvSpec.Library.Splitting
import DvSpec.Types.Casing
import DvSpec.Library.Codec
import DvSpec.Library.BigEndian
import DvSpec.Types.Coercions
import DvSpec.Cluster.FileRoundTrip
import DvSpec.Crypto.Signing
import DvSpec.SigAgg.Pipeline
import DvSpec.Crypto.Tabulated
import DvSpec.SigAgg.ThreeOfFour
import DvSpec.SigAgg.ClusterRuns
import DvSpec.Cluster.LockVerification
import DvSpec.Cluster.VerifiedLock
import DvSpec.Cluster.KeyShares
import DvSpec.Cluster.Attestation
import DvSpec.Dkg.NodeSigs
import DvSpec.InfoSync.Exchange
import DvSpec.Consensus.NetworkSafety
import DvSpec.Consensus.Refinement
