import DistributedSystems.Raft.LogCompaction
import DistributedSystems.Raft.Election
import DistributedSystems.Raft.VoteDurability
import DistributedSystems.Raft.AppendEntries
import DistributedSystems.Raft.ClientFutures
import DistributedSystems.Protocol.LogMatching
import DistributedSystems.Protocol.LeaderCompleteness
import DistributedSystems.Raft.LogRefinement
import DistributedSystems.Raft.NodeRefinement
import DistributedSystems.Raft.CommitRule
import DistributedSystems.Raft.Simulation
import DistributedSystems.Raft.Refinement
import DistributedSystems.Raft.Safety
import DistributedSystems.Pbft.Messages
import DistributedSystems.Pbft.Node
import DistributedSystems.Pbft.System
import DistributedSystems.Pbft.CommitVotes
import DistributedSystems.Pbft.PrePrepares
import DistributedSystems.Pbft.Agreement
import DistributedSystems.Pbft.Divergence
import DistributedSystems.Pbft.Execution
import DistributedSystems.Pbft.Ordering
import DistributedSystems.Pbft.ViewChange
import DistributedSystems.Pbft.ViewDiscipline
import DistributedSystems.Pbft.Transit
import DistributedSystems.Pbft.ViewChangeOrder
import DistributedSystems.Pbft.Completion
import DistributedSystems.Protocol.Dict
import DistributedSystems.Transactions.TwoPhaseCommit
import DistributedSystems.Transactions.Decisions
import DistributedSystems.Transactions.Coverage
import DistributedSystems.Election.Lease
import DistributedSystems.Election.LeaseCluster
import DistributedSystems.Election.TermWinner
import DistributedSystems.Election.Exclusivity
import DistributedSystems.Election.Fencing
import DistributedSystems.QuorumStore.Coordinator
import DistributedSystems.QuorumStore.LatestRead
import DistributedSystems.Crdt.LWWMap
import DistributedSystems.Crdt.LWWConvergence
import DistributedSystems.Crdt.ORSet
import DistributedSystems.Crdt.PNCounter
import DistributedSystems.Crdt.CounterSum
import DistributedSystems.Gossip.StateStore
import DistributedSystems.Gossip.Push
import DistributedSystems.Gossip.Pull
import DistributedSystems.Locks.DistributedLock
import DistributedSystems.Locks.MutualExclusion
import DistributedSystems.Locks.LockManager
import DistributedSystems.Locks.FencedLock
import DistributedSystems.Locks.Redlock
import DistributedSystems.Locks.RedlockExclusion
import DistributedSystems.Election.Ring
import DistributedSystems.Election.RingAgreement
import DistributedSystems.Election.Bully
import DistributedSystems.Election.BullyVictory
import DistributedSystems.Clocks.VectorClock
import DistributedSystems.Clocks.Causality
import DistributedSystems.Clocks.DottedVersionVector
import DistributedSystems.NetworkPartition.PartitionCoordinator
import DistributedSystems.NetworkPartition.Scenario
import DistributedSystems.Hashing.ConsistentHashRing
import DistributedSystems.Merkle.MerkleTree
import DistributedSystems.Merkle.ProofSoundness
import DistributedSystems.Raft.ReplicationProgress
import DistributedSystems.Raft.CompactionTransparency
import DistributedSystems.EventualConsistency.ConflictResolution
import DistributedSystems.EventualConsistency.ReadRepair
import DistributedSystems.EventualConsistency.RepairRaces
import DistributedSystems.Crdt.CausalContext
import DistributedSystems.Crdt.RegisterConvergence
import DistributedSystems.Raft.AppendStep
import DistributedSystems.Raft.FileStorage
import DistributedSystems.Raft.HeartbeatTimers
import DistributedSystems.ServiceDiscovery.ServiceRegistry
import DistributedSystems.ServiceDiscovery.ObserverSync
import DistributedSystems.Pbft.RequestStates
import DistributedSystems.Transactions.Interleaving
import DistributedSystems.Crdt.GSet
import DistributedSystems.Crdt.SetDocuments
import DistributedSystems.Transactions.UndoDiscipline
import DistributedSystems.Transactions.Sequential
import DistributedSystems.QuorumStore.QuorumValidator
import DistributedSystems.QuorumStore.HintedHandoff
import DistributedSystems.Election.BullyTerms
import DistributedSystems.Merkle.ProofCompleteness
import DistributedSystems.EventualConsistency.CausalResolution
import DistributedSystems.Protocol.DepthFirst
import DistributedSystems.Locks.DeadlockDetector
import DistributedSystems.Locks.DeadlockCycles
import DistributedSystems.Election.LeaseRenewal
import DistributedSystems.Locks.RedlockRetries
import DistributedSystems.Protocol.HeapTree
import DistributedSystems.EventualConsistency.AntiEntropy
import DistributedSystems.EventualConsistency.BucketComparison
import DistributedSystems.Protocol.LevelTree
import DistributedSystems.Merkle.DataTree
import DistributedSystems.Merkle.Diff
import DistributedSystems.Merkle.Tampering
import DistributedSystems.Hashing.HashToNode
import DistributedSystems.Bloom.BloomFilter
import DistributedSystems.Bloom.CountingBloomFilter
import DistributedSystems.Bloom.FilterSize
import DistributedSystems.Bloom.ScalableBloomFilter
import DistributedSystems.Bloom.UsableParameters
import DistributedSystems.Gossip.Membership
import DistributedSystems.Gossip.MembershipOrder
import DistributedSystems.Gossip.Refutation
import DistributedSystems.Clocks.DotFreshness
import DistributedSystems.Clocks.LamportClock
import DistributedSystems.Protocol.CausalChains
import DistributedSystems.Protocol.Observed
import DistributedSystems.Protocol.Accounts
import DistributedSystems.Protocol.Windows
import DistributedSystems.RateLimiting.TokenBucket
import DistributedSystems.RateLimiting.LeakyBucket
import DistributedSystems.RateLimiting.SlidingWindow
import DistributedSystems.RateLimiting.RedisWindow
import DistributedSystems.RateLimiting.AdaptiveRate
import DistributedSystems.Clocks.IntervalTree
import DistributedSystems.Clocks.IntervalTreeObjects
import DistributedSystems.Protocol.Dissemination
import DistributedSystems.Protocol.ErrorFunction
import DistributedSystems.Gossip.FailureDetector
import DistributedSystems.Gossip.GossipNode
import DistributedSystems.Gossip.NodeRefinement
import DistributedSystems.Gossip.Epidemic
import DistributedSystems.Gossip.NodeMembership
import DistributedSystems.Gossip.Notifications
import DistributedSystems.Gossip.Subscribers
import DistributedSystems.Protocol.VectorTime
import DistributedSystems.EventualConsistency.CausalSession
import DistributedSystems.Tracing.Tracer
import DistributedSystems.Tracing.TraceTree
import DistributedSystems.Tracing.FinishedSpans
import DistributedSystems.Raft.NextIndex
import DistributedSystems.Raft.CatchUp
import DistributedSystems.Raft.Replies
import DistributedSystems.Raft.Linearizability
import DistributedSystems.Raft.ApplyProgress
import DistributedSystems.Raft.CommandAnswered
