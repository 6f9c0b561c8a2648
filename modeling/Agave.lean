import Agave.Sdk.Basic
import Agave.Sdk.Message
import Agave.BundleStage.FrontRunIdentifier
import Agave.Vote.State
import Agave.Vote.WellFormed
import Agave.Lib.Forest
import Agave.Vote.Program
import Agave.Consensus.Tower
import Agave.Consensus.LockoutSafety
import Agave.Lib.Slice
import Agave.Lockup.Pool
import Agave.Lockup.Processor
import Agave.Lockup.Invariant
import Agave.Lockup.Eviction
import Agave.Scheduler.Machine
import Agave.Lib.ListOrder
import Agave.Scheduler.Invariant
import Agave.Scheduler.Schedule
import Agave.Scheduler.Unblock
import Agave.Scheduler.Deschedule
import Agave.Scheduler.Safety
import Agave.AccountsDb.AccountLocks
import Agave.CostModel.CostTracker
import Agave.CostModel.Conservation
import Agave.AccountsDb.RollingBitField
import Agave.Core.P3Quic
import Agave.Core.TipManager
import Agave.BankingStage.ThreadAwareAccountLocks
import Agave.BankingStage.ThreadLockCounts
import Agave.BankingStage.ThreadLockSafety
import Agave.Lib.AssocList
import Agave.Runtime.StatusCache
import Agave.Runtime.StatusCacheSafety
import Agave.Gossip.Crds
import Agave.Gossip.CrdsIndex
import Agave.Gossip.CrdsSafety
import Agave.Lib.MerkleLevels
import Agave.MerkleTree.Tree
import Agave.TipDistributor.Generate
import Agave.TipDistribution.Claim
import Agave.TipDistributor.Claims
import Agave.Vote.ProposedState
import Agave.Shred.Merkle
import Agave.Ledger.ShredIndex
import Agave.Turbine.ClusterNodes
import Agave.Entry.Poh
import Agave.Vote.EpochCredits
import Agave.AccountsDb.BlockhashQueue
import Agave.Sdk.EpochSchedule
import Agave.Sdk.VarInt
import Agave.Sdk.ShortVec
import Agave.Stake.State
import Agave.Lib.CeilDiv
import Agave.Stake.Merge
import Agave.Lib.ByteCodec
import Agave.AddressLookupTable.State
import Agave.AddressLookupTable.Processor
import Agave.Vote.AuthorizedVoters
import Agave.Lib.Duration
import Agave.Runtime.StakeWeightedTimestamp
import Agave.Vote.CompactSerde
import Agave.Stake.Rewards
import Agave.Lib.Chunks
import Agave.Lib.FixedPoint
import Agave.Shred.MakeShreds
import Agave.Sdk.VersionedMessage
import Agave.Sdk.WriteLocks
import Agave.Lib.Traverse
import Agave.Sdk.TryCompile
import Agave.Lib.ImplicitTree
import Agave.Lib.PrefixSum
import Agave.Gossip.WeightedShuffle
import Agave.Gossip.WeightedShuffleTree
import Agave.Gossip.WeightedShuffleSlow
import Agave.Consensus.ForkChoice.Tree
import Agave.Consensus.ForkChoice.Update
import Agave.Consensus.ForkChoice.Shape
import Agave.Consensus.ForkChoice.Process
import Agave.Consensus.ForkChoice.Votes
import Agave.Consensus.ForkChoice.Run
import Agave.Consensus.ForkChoice.Subtree
import Agave.Consensus.ForkChoice.Heaviest
import Agave.Consensus.ForkChoice.Propagate
import Agave.Consensus.ForkChoice.Choice
import Agave.Consensus.TreeDiff
