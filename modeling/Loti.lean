import Loti.Wire
import Loti.ChainValidation
import Loti.OfflineProof
import Loti.InMemoryStore
import Loti.ChainBuilding
import Loti.Discovery
import Loti.LmdbStore
import Loti.Node
import Loti.NodeRuns
import Loti.TipTable
import Loti.TamperEvidence
import Loti.Creation
import Loti.DiscoveryLedger
import Loti.SignatureSeparation
import Loti.DiscoverySoundness
import Loti.Attribution
import Loti.DiscoveryResolution
import Loti.Faults
import Loti.Records
import Loti.IdealHash
import Loti.Library.Provenance
import Loti.World
import Loti.ClockLiveness
import Loti.Library.Parsing
import Loti.WireFormat
import Loti.WireBounds
import Loti.DagStore
import Loti.InMemoryDag
import Loti.LmdbDag
import Loti.LocalDag
import Loti.DagInvariants
import Loti.OwnDiscovery
import Loti.Restart
import Loti.Snapshot
import Loti.DagIntegrity
import Loti.Outbox
import Loti.Peers
import Loti.CrossLinks
import Loti.NeighborDiscovery
import Loti.HandOff
import Loti.Control
import Loti.ControlTables
import Loti.ControlClients
import Loti.Loading
import Loti.Backup
import Loti.RoundTrip
import Loti.OrderDiscovery
import Loti.Transport
import Loti.Library.Descent
import Loti.Traffic
import Loti.FloodBound
import Loti.InMemoryInvariant
import Loti.ControlReply
import Loti.Commands
import Loti.CommandEffects
import Loti.Publishing
import Loti.Library.Transactions
import Loti.LmdbFile
import Loti.LmdbFailures
import Loti.StoreAgreement
import Loti.StoreNotifications
import Loti.ChainWalks
import Loti.LmdbEncoding
import Loti.LmdbWrites
import Loti.LmdbRefinement
import Loti.Library.StableQueue
import Loti.Reactor
import Loti.KeyStore
import Loti.ProofExport
import Loti.ProofRequests
import Loti.Truth
