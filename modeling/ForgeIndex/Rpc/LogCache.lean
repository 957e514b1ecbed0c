import Mathlib.Data.List.Sort
import ForgeIndex.Db.Postgres

/-!
# The log cache

`forge-index-rpc`: `LogFilter` of `types.rs`, the log part of `cache/store.rs` and
`CachedRpcClient::get_logs`.  The Keccak hash behind the checksummed addresses is a parameter.
-/

namespace ForgeIndex

structure LogFilter where
  address : List Address
  topics : List (Option (List Hash32))
  fromBlock : UInt64
  toBlock : UInt64

namespace LogFilter

/-- The topics of a log against the topic sets of a filter, position by position; no set and an
empty set let every value through. -/
def topicsMatch : List (Option (List Hash32)) → List Hash32 → Bool
  | [], _ => true
  | none :: ps, ts => topicsMatch ps ts.tail
  | some values :: ps, ts =>
    (values.isEmpty || ts.head?.any fun t => decide (t ∈ values)) && topicsMatch ps ts.tail

/-- What `eth_getLogs` returns for the filter of `to_alloy_filter`, which has four topic
positions. -/
def selects (f : LogFilter) (l : Log) : Bool :=
  decide (f.fromBlock ≤ l.blockNumber) && decide (l.blockNumber ≤ f.toBlock) &&
    (f.address.isEmpty || decide (l.address ∈ f.address)) && topicsMatch (f.topics.take 4) l.topics

end LogFilter

/-- The columns of `ponder_sync.logs` that say which filter a row was fetched for. -/
structure FilterColumns where
  chainId : Int64
  fromBlock : Int64
  toBlock : Int64
  address : List String
  topics : List String
  deriving DecidableEq

/-- A row of `ponder_sync.logs`. -/
structure LogRow where
  filter : FilterColumns
  logIndex : Int32
  blockNumber : Int64
  blockHash : String
  txHash : String
  txIndex : Int32
  logAddress : String
  logTopics : List String
  data : Bytes
  removed : Bool
  deriving DecidableEq

/-- `PRIMARY KEY (chain_id, block_number, log_index)`. -/
def LogRow.key (r : LogRow) : Int64 × Int64 × Int32 := (r.filter.chainId, r.blockNumber, r.logIndex)

/-- `ORDER BY block_number, log_index`. -/
def LogRow.le (a b : LogRow) : Prop :=
  a.blockNumber < b.blockNumber ∨ (a.blockNumber = b.blockNumber ∧ a.logIndex ≤ b.logIndex)

instance : DecidableRel LogRow.le := fun a b =>
  inferInstanceAs (Decidable (a.blockNumber < b.blockNumber ∨
    (a.blockNumber = b.blockNumber ∧ a.logIndex ≤ b.logIndex)))

/-- `format!("{}-{}", block_hash, log_index)`. -/
def logId (blockHash : String) (logIndex : Int) : String := blockHash ++ "-" ++ toString logIndex

def LogRow.intoLog (r : LogRow) (chainId : UInt64) : Log where
  id := logId r.blockHash r.logIndex.toInt
  chainId := chainId
  address := (Address.fromHex r.logAddress).getD Address.zero
  topics := r.logTopics.filterMap Hash32.fromHex
  data := r.data
  blockNumber := r.blockNumber.toUInt64
  blockHash := (Hash32.fromHex r.blockHash).getD Hash32.zero
  transactionHash := (Hash32.fromHex r.txHash).getD Hash32.zero
  logIndex := r.logIndex.toUInt32
  transactionIndex := r.txIndex.toUInt32
  removed := r.removed

/-- The client's counters and its database. -/
structure RpcCache where
  logs : List LogRow
  /-- Statements sent so far. -/
  clock : ℕ
  hits : UInt64
  misses : UInt64

/-- A new client on an empty `ponder_sync.logs`. -/
def RpcCache.empty : RpcCache := ⟨[], 0, 0, 0⟩

section Store

variable (keccak256 : Bytes → Hash32)

/-- The values bound to `$1` to `$5`: addresses as text, and a joined list for each topic position
that has one. -/
def filterColumns (chainId : UInt64) (f : LogFilter) : FilterColumns where
  chainId := chainId.toInt64
  fromBlock := f.fromBlock.toInt64
  toBlock := f.toBlock.toInt64
  address := f.address.map (Address.checksumHex keccak256)
  topics := f.topics.filterMap fun t => t.map fun hashes =>
    String.intercalate "," (hashes.map Hash32.display)

/-- The row of a log. -/
def logRow (columns : FilterColumns) (l : Log) : LogRow where
  filter := columns
  logIndex := l.logIndex.toInt32
  blockNumber := l.blockNumber.toInt64
  blockHash := l.blockHash.display
  txHash := l.transactionHash.display
  txIndex := l.transactionIndex.toInt32
  logAddress := l.address.checksumHex keccak256
  logTopics := l.topics.map Hash32.display
  data := l.data
  removed := l.removed

/-- The row that stands for an empty answer. -/
def sentinelRow (columns : FilterColumns) : LogRow where
  filter := columns
  logIndex := -1
  blockNumber := -1
  blockHash := ""
  txHash := ""
  txIndex := -1
  logAddress := ""
  logTopics := []
  data := []
  removed := false

variable (fate : ℕ → Fate)

/-- Sending a statement to the cache database. -/
def sendCache : Proc RpcCache SqlxError Unit := fun w =>
  match fate w.clock with
  | .killed => (.stopped, { w with clock := w.clock + 1 })
  | .rejected => (.err .rejected, { w with clock := w.clock + 1 })
  | .executed => (.ok (), { w with clock := w.clock + 1 })

/-- The rows with the given filter columns. -/
def rowsFor (columns : FilterColumns) (rows : List LogRow) : List LogRow :=
  rows.filter fun r => r.filter = columns

/-- `INSERT ... ON CONFLICT DO NOTHING`. -/
def insertLogRow (r : LogRow) : Proc RpcCache SqlxError Unit := do
  sendCache fate
  Proc.modify fun w => { w with
    logs := if w.logs.any fun s => s.key = r.key then w.logs else w.logs ++ [r] }

namespace RpcCacheStore

/-- `RpcCacheStore::get_logs`: a count, and the rows if there are any. -/
def getLogs (chainId : UInt64) (f : LogFilter) : Proc RpcCache SqlxError (Option (List Log)) := do
  sendCache fate
  let w ← Proc.get
  if (rowsFor (filterColumns keccak256 chainId f) w.logs).length = 0 then pure none
  else do
    sendCache fate
    let w ← Proc.get
    pure (some (((rowsFor (filterColumns keccak256 chainId f) w.logs).insertionSort LogRow.le).map
      fun r => r.intoLog chainId))

def putLogs (chainId : UInt64) (f : LogFilter) (logs : List Log) : Proc RpcCache SqlxError Unit := do
  Proc.forEach (fun l =>
    insertLogRow fate (logRow keccak256 (filterColumns keccak256 chainId f) l)) logs
  if logs.isEmpty then insertLogRow fate (sentinelRow (filterColumns keccak256 chainId f))
  else pure ()

end RpcCacheStore

/-- `CachedRpcClient::get_logs` over an `RpcClient` that answers as `inner`. -/
def CachedRpcClient.getLogs {ε : Type} (inner : LogFilter → Except ε (List Log)) (chainId : UInt64)
    (f : LogFilter) : Proc RpcCache ε (List Log) := do
  match ← Proc.attempt (RpcCacheStore.getLogs keccak256 fate chainId f) with
  | .ok (some logs) =>
    Proc.modify fun w => { w with hits := w.hits + 1 }
    pure (logs.filter fun l => l.logIndex ≠ 4294967295)
  | _ =>
    Proc.modify fun w => { w with misses := w.misses + 1 }
    let logs ← Proc.ofExcept (inner f)
    Proc.ignore (RpcCacheStore.putLogs keccak256 fate chainId f logs)
    pure logs

end Store

/-- A chain that does not change: its logs in order, with the fields that `Log::from_alloy`
gives, block numbers in the range of `BIGINT` and log indices in that of `INT`. -/
structure Chain where
  chainId : UInt64
  logs : List Log
  ordered : logs.Pairwise fun a b => a.blockNumber < b.blockNumber ∨
    (a.blockNumber = b.blockNumber ∧ a.logIndex < b.logIndex)
  id_eq : ∀ l ∈ logs, l.id = logId l.blockHash.display l.logIndex.toNat
  chainId_eq : ∀ l ∈ logs, l.chainId = chainId
  block_lt : ∀ l ∈ logs, l.blockNumber.toNat < 2 ^ 63
  index_lt : ∀ l ∈ logs, l.logIndex.toNat < 2 ^ 31

/-- The answer of a node for a filter. -/
def Chain.answer (chain : Chain) (f : LogFilter) : List Log := chain.logs.filter f.selects

end ForgeIndex
