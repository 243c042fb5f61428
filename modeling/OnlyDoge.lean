import OnlyDoge.Library.Precondition
import OnlyDoge.Library.Replacing
import OnlyDoge.Library.OrderedMap
import OnlyDoge.Chain.Effects
import OnlyDoge.Warehouse.Facts
import OnlyDoge.Warehouse.CurrentState
import OnlyDoge.Warehouse.Materialization
import OnlyDoge.Warehouse.Window
import OnlyDoge.Warehouse.WindowSpec
import OnlyDoge.Warehouse.MutationLedger
import OnlyDoge.Warehouse.CurrentStateLedger
import OnlyDoge.Warehouse.WindowLedger
import OnlyDoge.Warehouse.WindowPartition
import OnlyDoge.Warehouse.MaterializationLedger
import OnlyDoge.Warehouse.CurrentStateRuns
import OnlyDoge.Warehouse.StoredChain
import OnlyDoge.Warehouse.Repair
import OnlyDoge.Warehouse.FactRuns
import OnlyDoge.Warehouse.Fees
import OnlyDoge.Library.Grouping
import OnlyDoge.Warehouse.Listing
import OnlyDoge.Warehouse.Movements
import OnlyDoge.Warehouse.AnalyticsBalances
import OnlyDoge.Indexer.Lease
import OnlyDoge.Indexer.LeaseExclusion
import OnlyDoge.Indexer.LeaseTakeover
import OnlyDoge.Library.Invariant
import OnlyDoge.Warehouse.Frames
import OnlyDoge.Warehouse.ProcessedBlocks
import OnlyDoge.Warehouse.ProcessedChain
import OnlyDoge.Library.Returns
import OnlyDoge.Warehouse.WindowChecks
import OnlyDoge.Library.Cursor
import OnlyDoge.Node.ByteReader
import OnlyDoge.Node.DecoderBounds
import OnlyDoge.Node.WireEncoding
import OnlyDoge.Indexer.RawBlockSync
import OnlyDoge.Indexer.RawSyncDurability
import OnlyDoge.Library.Pieces
import OnlyDoge.Warehouse.KeyRanges
import OnlyDoge.Warehouse.Resumption
import OnlyDoge.Library.Rows
import OnlyDoge.Warehouse.InMemory
import OnlyDoge.Warehouse.InMemoryRecovery
import OnlyDoge.Warehouse.InMemoryChain
import OnlyDoge.Warehouse.InMemoryRuns
import OnlyDoge.Indexer.Service
import OnlyDoge.Warehouse.AppliedBlocks
import OnlyDoge.Warehouse.HeldWindows
import OnlyDoge.Indexer.Frames
import OnlyDoge.Indexer.FlagWrites
import OnlyDoge.Indexer.Recoverable
import OnlyDoge.Indexer.Startup
import OnlyDoge.Indexer.WindowProcessing
import OnlyDoge.Indexer.Stages
import OnlyDoge.Indexer.OnlineRows
import OnlyDoge.Indexer.ProcessedTail
import OnlyDoge.Indexer.ProcessingPlans
import OnlyDoge.Indexer.ReadyFlags
import OnlyDoge.Chain.Amounts
import OnlyDoge.Chain.Snapshot
import OnlyDoge.Library.Folding
import OnlyDoge.Chain.DecodedBlocks
import OnlyDoge.Chain.DecoderForm
import OnlyDoge.Indexer.StateRow
import OnlyDoge.Access.ApiKeys
import OnlyDoge.Access.LastAdmin
import OnlyDoge.Mempool.WatchCap
import OnlyDoge.Mempool.Detector
import OnlyDoge.Mempool.Appearances
import OnlyDoge.Mempool.Session
import OnlyDoge.Mempool.SessionRuns
import OnlyDoge.Library.ArgMax
import OnlyDoge.Warehouse.FactBackfill
import OnlyDoge.Warehouse.InMemoryFacts
import OnlyDoge.Explorer.Summaries
import OnlyDoge.Explorer.OneSummary
import OnlyDoge.Analytics.SqlText
import OnlyDoge.Analytics.SqlGuard
import OnlyDoge.Analytics.Sources
import OnlyDoge.Analytics.Conditions
import OnlyDoge.Analytics.Restriction
import OnlyDoge.Chain.DecimalUnits
import OnlyDoge.Library.SparseArray
import OnlyDoge.Node.JsonRpc
import OnlyDoge.Node.RpcBatch
import OnlyDoge.Library.Paging
import OnlyDoge.Warehouse.BalancePages
import OnlyDoge.Warehouse.QueryChunks
import OnlyDoge.Mempool.ConnectionPool
import OnlyDoge.Library.Scanning
import OnlyDoge.Analytics.SqlLexer
import OnlyDoge.Library.SortedPrefix
import OnlyDoge.Library.Transaction
import OnlyDoge.Metadata.Migrations
import OnlyDoge.Metadata.MigrationRuns
import OnlyDoge.Indexer.FrontierHistory
import OnlyDoge.Access.ExternalIds
import OnlyDoge.Library.Radix
import OnlyDoge.Node.Base58
import OnlyDoge.Node.PushOnly
import OnlyDoge.Explorer.OutputValues
import OnlyDoge.Indexer.Concurrency
import OnlyDoge.Indexer.ConcurrencyRuns
import OnlyDoge.Library.JsonNumber
import OnlyDoge.Library.Json
import OnlyDoge.Library.JsonRoundTrip
import OnlyDoge.Library.IsoTime
import OnlyDoge.Metadata.ConfigRows
import OnlyDoge.Indexer.RecoveryMarker
import OnlyDoge.Mempool.DetectorStatus
import OnlyDoge.Library.Spans
import OnlyDoge.Indexer.PrefetcherRuns
import OnlyDoge.Indexer.PrefetcherInFlight
import OnlyDoge.Warehouse.Rejection
import OnlyDoge.Indexer.HistoryReady
import OnlyDoge.Library.Keyed
import OnlyDoge.Analytics.QueryRuns
import OnlyDoge.Node.RpcPacingRuns
import OnlyDoge.Warehouse.AdapterAgreement
import OnlyDoge.Explorer.MempoolCacheRuns
import OnlyDoge.Access.KeyRuns
import OnlyDoge.Access.Bootstraps
import OnlyDoge.Explorer.TransactionRefs
import OnlyDoge.Indexer.SyncedHeights
import OnlyDoge.Library.PosixPath
import OnlyDoge.Library.Slots
import OnlyDoge.Storage.RawBlockStorage
import OnlyDoge.Storage.SyncedParts
