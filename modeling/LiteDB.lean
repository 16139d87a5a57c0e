import LiteDB.ElectionLiveness
import LiteDB.FixedMembership
import LiteDB.LastWrites
import LiteDB.ReplicaWipes
import LiteDB.OrphanedIntents
import LiteDB.DurableAcks
import LiteDB.RetriedPuts
import LiteDB.LsmLocks
import LiteDB.StoredValues
import LiteDB.AsyncReplication
import LiteDB.GossipMembership
import LiteDB.LogConfigurations
import LiteDB.ReadinessGate
import LiteDB.RemovedLeaders
import LiteDB.LogLines
import LiteDB.PeerPositions
import LiteDB.JavaJson
import LiteDB.JavaWal
import LiteDB.PessimisticTransactions
import LiteDB.RelationalEngine
import LiteDB.TransactionVacuum
import LiteDB.Vacuum
import LiteDB.VersionSeparation
import LiteDB.IndexedLsm
import LiteDB.ShardRouter
import LiteDB.SqlParser
import LiteDB.Reconciliation
import LiteDB.CarriedElections
import LiteDB.WalSequences
import LiteDB.RecencyOrder
import LiteDB.TimestampRange
import LiteDB.BTreeShape
import LiteDB.ScanBounds
import LiteDB.PlacementDecisions
import LiteDB.FailedWrites
import LiteDB.TokenBucket
