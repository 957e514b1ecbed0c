import Mathlib.Data.List.Sort
import ForgeIndex.Backfill.Planner
import ForgeIndex.Sync.Types

/-!
# The backfill coordinator

`forge-index-sync/src/backfill/coordinator.rs`: planning, the walk over the shared range index,
handler dispatch, the flush and the checkpoints.
-/

namespace ForgeIndex

variable {V : Type}

/-- `EventHandlerFn`.  A call panics with a message or gives a future; the `DbContext` that it
holds reaches the write buffer and, for reading, Postgres. -/
structure EventHandlerFn (V : Type) where
  call : DecodedEvent → Except String (Proc (World V) String Unit)
  reach : ∀ e future, call e = .ok future → ∀ w, ∃ buffers clock,
    (future w).2 = { w with buffers, clock }

/-- A handler of the legacy registry, which is given no database. -/
abbrev LegacyHandler := DecodedEvent → Except String (Ended String Unit)

abbrev FetchRange := BlockRange → Except SyncError (List DecodedEvent)

structure BackfillCoordinator (V : Type) where
  workers : UInt64 × String → Option FetchRange
  registry : String → Option LegacyHandler
  dbHandlers : String → Option (EventHandlerFn V)
  writeBuffer : WriteBuffer
  chainContracts : UInt64 → List ContractConfig
  chainChunkSizes : UInt64 → Option UInt64

def getCheckpoint (env : Env V) (chainId : UInt64) (contract : String) :
    Proc (World V) SqlxError (Option UInt64) := do
  send env
  let w ← Proc.get
  pure ((w.checkpoints (chainId, contract)).map Int64.toUInt64)

def putCheckpoint (env : Env V) (chainId : UInt64) (contract : String) (lastBlock : UInt64) :
    Proc (World V) SqlxError Unit := do
  send env
  Proc.modify fun w => { w with
    checkpoints := Function.update w.checkpoints (chainId, contract) (some lastBlock.toInt64) }

/-- `(block_number, log_index)` order. -/
def DecodedEvent.le (a b : DecodedEvent) : Prop :=
  a.rawLog.blockNumber < b.rawLog.blockNumber ∨
    (a.rawLog.blockNumber = b.rawLog.blockNumber ∧ a.rawLog.logIndex ≤ b.rawLog.logIndex)

instance : DecidableRel DecodedEvent.le := fun a b =>
  inferInstanceAs (Decidable (a.rawLog.blockNumber < b.rawLog.blockNumber ∨
    (a.rawLog.blockNumber = b.rawLog.blockNumber ∧ a.rawLog.logIndex ≤ b.rawLog.logIndex)))

/-- `format!("{}:{}", event.contract_name, event.name)`. -/
def DecodedEvent.handlerKey (e : DecodedEvent) : String := e.contractName ++ ":" ++ e.name

namespace BackfillCoordinator

def defaultChunkSize : UInt64 := 2000

/-- The planning of one contract.  A failed read of the checkpoint counts as no checkpoint; a
plan that is never finished ends the run. -/
def planContract (co : BackfillCoordinator V) (env : Env V) (chainId currentBlock : UInt64)
    (contract : ContractConfig) : Proc (World V) SyncError BackfillPlan := do
  let checkpoint ← Proc.attempt (getCheckpoint env chainId contract.name)
  match plan contract chainId currentBlock (checkpoint.toOption.getD none)
      ((co.chainChunkSizes chainId).getD defaultChunkSize) with
  | .ok p => pure p
  | .error _ => Proc.stop

def planAll (co : BackfillCoordinator V) (env : Env V) (chainId currentBlock : UInt64) :
    Proc (World V) SyncError (List BackfillPlan) :=
  Proc.mapEach (co.planContract env chainId currentBlock) (co.chainContracts chainId)

/-- `total_blocks` and `init_chain`; the sum is checked. -/
def initProgress (chainId : UInt64) (plans : List BackfillPlan) : Proc (World V) SyncError Unit :=
  let total := (plans.map fun p => p.totalBlocks.toNat).sum
  if 2 ^ 64 ≤ total then Proc.stop
  else Proc.modify fun w => { w with
    progress := Function.update w.progress chainId (some (UInt64.ofNat total, 0, 0)) }

def maxRanges (plans : List BackfillPlan) : ℕ :=
  plans.foldr (fun p n => max p.ranges.length n) 0

/-- The loop body that fetches the range of one plan. -/
def fetchPlan (co : BackfillCoordinator V) (chainId : UInt64) (rangeIdx : ℕ)
    (allEvents : List DecodedEvent) (p : BackfillPlan) : Except SyncError (List DecodedEvent) :=
  match p.ranges[rangeIdx]? with
  | none => .ok allEvents
  | some range =>
    match co.workers (chainId, p.contractName) with
    | none => .ok allEvents
    | some fetchRange => (fetchRange range).map (allEvents ++ ·)

def fetchAll (co : BackfillCoordinator V) (chainId : UInt64) (plans : List BackfillPlan)
    (rangeIdx : ℕ) : Except SyncError (List DecodedEvent) :=
  plans.foldlM (co.fetchPlan chainId rangeIdx) []

/-- The call of a handler: an error it returns is logged, a panic of the call ends the run with
an error, a panic of the future takes the task down. -/
def callHandler (co : BackfillCoordinator V) (e : DecodedEvent) : Proc (World V) SyncError Unit :=
  match co.dbHandlers e.handlerKey with
  | some handler =>
    match handler.call e with
    | .error message => Proc.fail (.handlerPanic e.handlerKey message)
    | .ok future => Proc.ignore future
  | none =>
    match co.registry e.handlerKey with
    | some handler =>
      match handler e with
      | .error message => Proc.fail (.handlerPanic e.handlerKey message)
      | .ok .stopped => Proc.stop
      | .ok _ => pure ()
    | none => pure ()

/-- The body of the event loop. -/
def dispatch (co : BackfillCoordinator V) (rangeIdx : ℕ) (e : DecodedEvent) :
    Proc (World V) SyncError Unit := do
  Proc.modify fun w => { w with dispatched := w.dispatched ++ [(rangeIdx, e)] }
  co.callHandler e

/-- The checkpoint of one plan; an error is ignored. -/
def saveCheckpoint (env : Env V) (chainId : UInt64) (rangeIdx : ℕ) (p : BackfillPlan) :
    Proc (World V) SyncError Unit :=
  match p.ranges[rangeIdx]? with
  | none => pure ()
  | some range => Proc.ignore (putCheckpoint env chainId p.contractName (range.toBlock + 1))

def blocksInRange (plans : List BackfillPlan) (rangeIdx : ℕ) : UInt64 :=
  (plans.filterMap fun p => p.ranges[rangeIdx]?.map BlockRange.len).foldr max 0

/-- `BackfillProgress::record`. -/
def recordProgress (chainId blocks events : UInt64) : Proc (World V) SyncError Unit :=
  Proc.modify fun w => { w with
    progress := Function.update w.progress chainId
      ((w.progress chainId).map fun p => (p.1, p.2.1 + blocks, p.2.2 + events)) }

variable [DecidableEq V]

/-- The body of the loop over the range index. -/
def processRange (co : BackfillCoordinator V) (env : Env V) (chainId : UInt64)
    (plans : List BackfillPlan) (rangeIdx : ℕ) : Proc (World V) SyncError Unit := do
  let allEvents ← Proc.ofExcept (co.fetchAll chainId plans rangeIdx)
  Proc.forEach (co.dispatch rangeIdx) (allEvents.insertionSort DecodedEvent.le)
  let _ ← (co.writeBuffer.flushAll env).mapErr SyncError.database
  Proc.forEach (saveCheckpoint env chainId rangeIdx) plans
  recordProgress chainId (blocksInRange plans rangeIdx) (UInt64.ofNat allEvents.length)

def runChain (co : BackfillCoordinator V) (env : Env V) (chainId currentBlock : UInt64) :
    Proc (World V) SyncError Unit :=
  if (co.chainContracts chainId).isEmpty then pure ()
  else do
    let plans ← co.planAll env chainId currentBlock
    initProgress chainId plans
    Proc.forEach (co.processRange env chainId plans) (List.range (maxRanges plans))

end BackfillCoordinator

end ForgeIndex
