import Lighthouse.Foundations.Trace
import Lighthouse.SlashingProtection.Database
import Lighthouse.SlashingProtection.Spec
import Lighthouse.SlashingProtection.Guards
import Lighthouse.SlashingProtection.Safety
import Lighthouse.Foundations.Checked
import Lighthouse.Foundations.EState
import Lighthouse.Foundations.Forest
import Lighthouse.Foundations.PositionMap
import Lighthouse.ProtoArray.Types
import Lighthouse.ProtoArray.Core
import Lighthouse.ProtoArray.ForkChoice
import Lighthouse.ProtoArray.Structure
import Lighthouse.ProtoArray.Prune
import Lighthouse.ProtoArray.Invariant
import Lighthouse.ProtoArray.Status
import Lighthouse.ProtoArray.Marking
import Lighthouse.ProtoArray.Invalidation
import Lighthouse.ProtoArray.Ghost
import Lighthouse.Gossip.Observed
import Lighthouse.Doppelganger.Service
import Lighthouse.Doppelganger.Protection
import Lighthouse.EpochProcessing.AltairRewards
import Lighthouse.Ssz.FourByteOption
import Lighthouse.Foundations.Histogram
import Lighthouse.Registry.ExitCache
import Lighthouse.Registry.Operations
import Lighthouse.Foundations.Sweep
import Lighthouse.Slasher.Array
import Lighthouse.Slasher.Slasher
import Lighthouse.Slasher.View
import Lighthouse.Slasher.Loops
import Lighthouse.Slasher.Spec
import Lighthouse.EpochProcessing.Justification
import Lighthouse.Ssz.Decode
import Lighthouse.Foundations.Gcra
import Lighthouse.Network.RateLimiter
import Lighthouse.ForkChoice.Queue
import Lighthouse.ForkChoice.QueueRuns
import Lighthouse.EpochProcessing.ParticipationCache
import Lighthouse.Eth1.Vote
import Lighthouse.Foundations.Bytes
import Lighthouse.Ssz.Bitfield
import Lighthouse.Ssz.BitfieldLaws
import Lighthouse.Ssz.BitfieldOps
import Lighthouse.ProtoArray.Ancestry
import Lighthouse.Foundations.MerkleTree
import Lighthouse.TreeHash.Hash
import Lighthouse.TreeHash.MerkleHasher
import Lighthouse.TreeHash.MerkleRoot
import Lighthouse.LruCache.TimeCache
import Lighthouse.Sync.Batch
import Lighthouse.PeerManager.PeerDB
import Lighthouse.PeerManager.Counters
import Lighthouse.Network.ReprocessRuns
import Lighthouse.Foundations.MerkleBranch
import Lighthouse.MerkleProof.Tree
import Lighthouse.MerkleProof.DepositTree
import Lighthouse.Eth1.DepositCache
import Lighthouse.Eth1.DepositCacheRuns
import Lighthouse.Foundations.MaxCoverage
import Lighthouse.OperationPool.MaxCover
import Lighthouse.OperationPool.MaxCoverRuns
import Lighthouse.OperationPool.AttMaxCover
import Lighthouse.OperationPool.AttestationPool
import Lighthouse.OperationPool.GetAttestations
import Lighthouse.Foundations.Swaps
import Lighthouse.Shuffling.ComputeShuffledIndex
import Lighthouse.Shuffling.ShuffleList
import Lighthouse.Foundations.EvenSplit
import Lighthouse.Committee.CommitteeCache
