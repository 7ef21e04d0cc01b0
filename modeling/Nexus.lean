import Nexus.Broker.ConsumerRanges
import Nexus.Broker.DiskPartition
import Nexus.Broker.MemberIds
import Nexus.Broker.OffsetRanges
import Nexus.Broker.ProducerIdentities
import Nexus.Broker.StableOffset
import Nexus.Broker.Watermark
import Nexus.Client.Consumer
import Nexus.Consensus.AppendEntries
import Nexus.Consensus.Durability
import Nexus.Consensus.LeaderEpoch
import Nexus.Consensus.Leadership
import Nexus.Consensus.LogMatching
import Nexus.Consensus.NodeRuns
import Nexus.Consensus.StateStore
import Nexus.Ingress.CircuitBreaker
import Nexus.Ingress.HealthCheck
import Nexus.Ingress.JsonText
import Nexus.Ingress.JsonWriter
import Nexus.Ingress.Jwt
import Nexus.Ingress.LoadBalancer
import Nexus.Ingress.Sha256
import Nexus.Io.BlockReader
import Nexus.Protocol.FrameIo
import Nexus.Reactor.CrossCore
import Nexus.Reactor.SpscQueue
import Nexus.Server.AdminHttp
import Nexus.Server.AdminTopics
import Nexus.Storage.FailedTruncation
import Nexus.Storage.IndexWidth
import Nexus.Storage.LogCompactor
import Nexus.Storage.Reclaiming
import Nexus.Storage.SealedFiles
import Nexus.Storage.Tampering
import Nexus.Storage.Transparency
