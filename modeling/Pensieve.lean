import Pensieve.Foundation.Memory
import Pensieve.Storage.SlabEntry
import Pensieve.Foundation.Table
import Pensieve.Storage.SlabAllocator
import Pensieve.Storage.SlabRuns
import Pensieve.Storage.ClockEvictor
import Pensieve.Storage.EvictorBounds
import Pensieve.Hash.Hasher
import Pensieve.Foundation.Logged
import Pensieve.Hash.KeyReads
import Pensieve.Hash.Labels
import Pensieve.Storage.LocalStore
import Pensieve.Storage.Call
import Pensieve.Storage.Ownership
import Pensieve.Foundation.Machine
import Pensieve.Foundation.Custody
import Pensieve.Storage.Books
import Pensieve.Foundation.LossyMap
import Pensieve.Storage.Refinement
import Pensieve.Storage.Interleaving
import Pensieve.Foundation.Linearizable
import Pensieve.Storage.Linearizable
import Pensieve.Storage.Eviction
import Pensieve.Storage.OneClass
import Pensieve.Storage.Undisturbed
import Pensieve.Foundation.Codec
import Pensieve.Coordinator.WaitGroup
import Pensieve.Coordinator.Delivery
import Pensieve.Foundation.SortedMap
import Pensieve.Foundation.Word
import Pensieve.Membership.RingMigration
import Pensieve.Membership.Transfers
import Pensieve.Membership.Placement
import Pensieve.Membership.Successors
import Pensieve.Foundation.MaxMap
import Pensieve.Membership.MemberList
import Pensieve.Membership.SwimCodec
import Pensieve.Membership.Disseminator
import Pensieve.Membership.Transmission
import Pensieve.Membership.SwimProtocol
import Pensieve.Membership.Merge
import Pensieve.Membership.Coalescing
import Pensieve.Membership.Change
import Pensieve.Membership.Monotone
import Pensieve.Membership.Refutation
import Pensieve.Membership.Suspicion
import Pensieve.Membership.Timer
import Pensieve.Membership.Cluster
import Pensieve.Membership.DataPort
import Pensieve.Membership.Incarnation
import Pensieve.Membership.Traffic
import Pensieve.Membership.Evidence
import Pensieve.Membership.Infection
import Pensieve.Protocol.Stream
import Pensieve.Protocol.Transfer
import Pensieve.Coordinator.Coordinator
import Pensieve.Wiring
import Pensieve.Coordinator.Steps
import Pensieve.Coordinator.Accounting
import Pensieve.Coordinator.Collapsing
import Pensieve.Membership.Forwarding
import Pensieve.Membership.Presence
import Pensieve.Membership.Detection
import Pensieve.Membership.Hearsay
import Pensieve.Coordinator.Grid
import Pensieve.Coordinator.Service
import Pensieve.Coordinator.Integrity
import Pensieve.Coordinator.Cache
import Pensieve.Coordinator.Front
import Pensieve.Coordinator.Settled
import Pensieve.Foundation.Simulation
import Pensieve.Coordinator.OneCache
import Pensieve.Coordinator.Freshness
import Pensieve.Sdk.Connection
import Pensieve.Io.BufferPool
import Pensieve.Io.IoUringContext
import Pensieve.Io.Runtime
import Pensieve.Io.RuntimeSteps
import Pensieve.Io.Handles
import Pensieve.Io.RuntimeSafety
import Pensieve.Io.EventLoop
import Pensieve.Coordinator.PeerClient
import Pensieve.Coordinator.Proxy
import Pensieve.Sdk.TopologyManager
import Pensieve.Sdk.ClusterInfo
import Pensieve.Sdk.Refresh
import Pensieve.Sdk.Agreement
import Pensieve.Sdk.CircuitBreaker
import Pensieve.Sdk.PensieveClient
import Pensieve.Sdk.ClientSteps
import Pensieve.Sdk.Failover
