import ForgeIndex.Lib.FirstWins
import ForgeIndex.Lib.FirstOwner
import ForgeIndex.Lib.BigEndian
import ForgeIndex.Lib.HeadTail
import ForgeIndex.Lib.Utf8
import ForgeIndex.Lib.KeyedOps
import ForgeIndex.Lib.Proc
import ForgeIndex.Schema
import ForgeIndex.Db.Flush
import ForgeIndex.Db.Reorg
import ForgeIndex.Sync.Types
import ForgeIndex.Sync.Reorg
import ForgeIndex.Backfill.Coordinator
import ForgeIndex.Backfill.Delivery
import ForgeIndex.Backfill.Order
import ForgeIndex.Backfill.Inserts
import ForgeIndex.Backfill.NoLoss
import ForgeIndex.Backfill.Converge
import ForgeIndex.Rpc.LogCache
import ForgeIndex.Rpc.Transparency
import ForgeIndex.Lib.Outcome
import ForgeIndex.Lib.UndoLog
import ForgeIndex.Abi.Events
import ForgeIndex.Abi.Hostile
import ForgeIndex.Abi.Encoding
import ForgeIndex.Abi.RoundTrip
import ForgeIndex.Abi.Parser
import ForgeIndex.Abi.Params
import ForgeIndex.Db.Rollback
import ForgeIndex.Sync.Detector
import ForgeIndex.Sync.Realtime
import ForgeIndex.Sync.Agreement
import ForgeIndex.Rpc.BlockCache
import ForgeIndex.Sync.CacheReorg
import ForgeIndex.Lib.Text
import ForgeIndex.Api.Sql.Parser
import ForgeIndex.Api.Sql.Keywords
import ForgeIndex.Api.Sql.Limit
import ForgeIndex.Api.Sql.Qualify
import ForgeIndex.Api.Sql.References
import ForgeIndex.Api.Sql.Turns
import ForgeIndex.Api.Sql.OneTable
import ForgeIndex.Lib.SqlLexer
import ForgeIndex.Lib.Segments
import ForgeIndex.Api.Graphql.Pagination
import ForgeIndex.Api.Graphql.Resolver
import ForgeIndex.Lib.FromClause
import ForgeIndex.Lib.Along
import ForgeIndex.Lib.Window
import ForgeIndex.Sync.History
import ForgeIndex.Sync.ForkPoint
import ForgeIndex.Sync.Gaps
import ForgeIndex.Rpc.Dedup
import ForgeIndex.Lib.Custody
import ForgeIndex.Db.Concurrent
import ForgeIndex.Lib.Keyset
import ForgeIndex.Api.Graphql.Filters
import ForgeIndex.Api.Graphql.Listing
import ForgeIndex.Api.Graphql.Pages
import ForgeIndex.Backfill.Partition
import ForgeIndex.Config.Types
import ForgeIndex.Config.Validation
import ForgeIndex.Backfill.Ownership
import ForgeIndex.Lib.Filling
import ForgeIndex.Runner.ChunkSizes
import ForgeIndex.Runner.Wiring
import ForgeIndex.Backfill.EndBlock
import ForgeIndex.Lib.Replay
import ForgeIndex.Sync.Isolation
import ForgeIndex.Config.Json
import ForgeIndex.Lib.Delimited
import ForgeIndex.Telemetry.BuildId
import ForgeIndex.Telemetry.Distinct
import ForgeIndex.Config.CreateSql
import ForgeIndex.Db.Manager
import ForgeIndex.Runner.Restart
import ForgeIndex.Abi.HeadSize
import ForgeIndex.Abi.Truncated
import ForgeIndex.Abi.TypeStrings
import ForgeIndex.Abi.Solidity
import ForgeIndex.Abi.Signatures
import ForgeIndex.Db.Taken
import ForgeIndex.Db.ReadBack
import ForgeIndex.Db.ForeignKeys
import ForgeIndex.Rpc.Entries
import ForgeIndex.Rpc.EthCalls
import ForgeIndex.Rpc.FilterKeys
import ForgeIndex.Backfill.Checkpoints
import ForgeIndex.Sync.Lookback
import ForgeIndex.Db.Compose
import ForgeIndex.Db.ColumnTypes
import ForgeIndex.Lib.Columns
import ForgeIndex.Backfill.Progress
import ForgeIndex.Rpc.RateLimiter
import ForgeIndex.Rpc.Receipts
import ForgeIndex.Api.Graphql.TotalCount
import ForgeIndex.Api.Graphql.FilterMeaning
import ForgeIndex.Api.Graphql.Contains
import ForgeIndex.Lib.SqlConstant
import ForgeIndex.Db.Literal
import ForgeIndex.Api.Graphql.Values
import ForgeIndex.Api.Sql.Panics
import ForgeIndex.Api.Graphql.Names
import ForgeIndex.Telemetry.KeyOrder
import ForgeIndex.Config.RelationNames
import ForgeIndex.Api.Sql.RateLimiter
import ForgeIndex.Api.Graphql.Base64
import ForgeIndex.Api.Sql.Scan
import ForgeIndex.Api.Sql.Clamp
import ForgeIndex.Lib.SqlString
import ForgeIndex.Api.Graphql.Literals
import ForgeIndex.Rpc.Requests
import ForgeIndex.Rpc.Attempts
import ForgeIndex.Lib.ReadThrough
import ForgeIndex.Rpc.Transactions
import ForgeIndex.Rpc.CachedReads
import ForgeIndex.Api.Sql.Executor
import ForgeIndex.Api.Sql.Handler
import ForgeIndex.Runner.Builder
import ForgeIndex.Runner.Coordinator
import ForgeIndex.Runner.Lifecycle
import ForgeIndex.Cli.Dev
import ForgeIndex.Db.Query
import ForgeIndex.Db.Context
import ForgeIndex.Lib.RustText
import ForgeIndex.Cli.Codegen
