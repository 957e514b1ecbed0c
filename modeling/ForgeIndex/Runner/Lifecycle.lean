import Mathlib.Data.List.Dedup
import ForgeIndex.Runner.Coordinator
import ForgeIndex.Runner.Restart

/-!
# The life of a run

`ForgeIndexRunner::run` from the database setup to the shutdown, with the task of its API server.
Requests for `/ready` and signals arrive at any time between its stages.
-/

namespace ForgeIndex

open DatabaseManager (PgState)

variable {V C : Type}

/-- `Display` of `DbError`, with that of `sqlx::Error`. -/
def DbError.display (sqlx : SqlxError → String) : DbError → String
  | flush table source => "Flush failed for table '" ++ table ++ "': " ++ sqlx source
  | query table source => "Query failed on table '" ++ table ++ "': " ++ sqlx source
  | bufferFull table => "Buffer full for table '" ++ table ++ "'"

/-- `Display` of `SyncError`. -/
def SyncError.display (sqlx : SqlxError → String) : SyncError → String
  | rpc chainId source => "RPC error on chain " ++ toString chainId ++ ": " ++ source
  | decode contract source => "Decode error for contract '" ++ contract ++ "': " ++ source
  | database source => "Database error: " ++ source.display sqlx
  | handlerPanic handler message => "Handler '" ++ handler ++ "' panicked: " ++ message
  | chainNotFound chainId => "Chain not found: " ++ toString chainId
  | deepReorg chainId depth => "Deep reorg on chain " ++ toString chainId ++
      ": no common ancestor found within " ++ toString depth ++ " blocks"
  | subscriptionLost chainId message => "Subscription lost on chain " ++ toString chainId ++ ": " ++
      message

structure ReadyResponse where
  status : String
  message : Option String
  deriving DecidableEq, Repr

/-- `ready`: the status code and the body, for the value of the watch channel. -/
def ready (isReady : Bool) : ℕ × ReadyResponse :=
  if isReady then (200, ⟨"ready", none⟩)
  else (503, ⟨"syncing", some "Historical backfill in progress"⟩)

namespace ForgeIndexRunner

/-- What a run meets outside the process. -/
structure Surroundings (V C : Type) extends Node C where
  start : Start
  env : Env V
  /-- `Display` of `sqlx::Error`. -/
  sqlx : SqlxError → String
  /-- `RpcCacheStore::setup`. -/
  cacheSetup : Except String Unit
  buildFromConfig : ChainConfig → Except String C
  /-- The order in which the keys of `chain_contracts` come. -/
  order : List UInt64 → List UInt64
  order_perm : ∀ chainIds, (order chainIds).Perm chainIds
  /-- `DatabaseManager::release_lock`. -/
  releaseLock : Except DatabaseManager.Error Unit

/-- What the setup leaves for the backfill. -/
structure Wired (V C : Type) where
  clients : List (UInt64 × C)
  coordinator : BackfillCoordinator V

/-- Where a run stands; it waits for a signal, and then it stops. -/
inductive Phase (V C : Type) where
  | starting
  | backfilling (wired : Wired V C) (chainIds : List UInt64)
  | waiting
  | stopping
  | ended (outcome : Ended ForgeError Unit)

instance (phase : Phase V C) : Decidable (phase = .waiting) :=
  match phase with
  | .waiting => isTrue rfl
  | .starting => isFalse (by simp)
  | .backfilling _ _ => isFalse (by simp)
  | .stopping => isFalse (by simp)
  | .ended _ => isFalse (by simp)

/-- `ApiServer::run`, which is spawned as a task and binds its port before it listens. -/
inductive Server where
  | absent | spawned | listening | stopped
  deriving DecidableEq, Repr

/-- A process, the answers to the requests for `/ready` that reached it (none where no server
listens), and the contracts whose setup handlers were called.  Signals are caught from the first
`shutdown_signal` on, that of the server or that of the run. -/
structure Process (V C : Type) where
  phase : Phase V C
  database : PgState
  world : World V
  setupCalls : List String
  server : Server
  caught : Bool
  ready : Bool
  replies : List (Option (ℕ × ReadyResponse))

variable [DecidableEq V] (parse : String → Except AbiError ParsedAbi) (sha256 : Bytes → Bytes)
  (r : ForgeIndexRunner V) (s : Surroundings V C)

namespace Process

/-- A process that has just been started. -/
def started (database : PgState) (world : World V) : Process V C :=
  ⟨.starting, database, world, [], .absent, false, false, []⟩

def onDatabase {ε α : Type} : Proc PgState ε α → Proc (Process V C) ε α :=
  Proc.within Process.database fun p database => { p with database }

def onWorld {ε α : Type} : Proc (World V) ε α → Proc (Process V C) ε α :=
  Proc.within Process.world fun p world => { p with world }

/-- A stage that finished leads to the next one; `?` ends the run with the error, and a panic or
a kill takes the whole process down. -/
def settle {α : Type} (next : α → Phase V C) : Ended ForgeError α × Process V C → Process V C
  | (.ok a, p) => { p with phase := next a }
  | (.err e, p) => { p with phase := .ended (.err e) }
  | (.stopped, p) => { p with phase := .ended .stopped, server := .stopped }

end Process

open Process

/-- "Setup handlers": an error is logged. -/
def runSetup (contract : Config.Contract) : Proc (Process V C) ForgeError Unit :=
  match r.registry.setupHandlers contract.name with
  | none => pure ()
  | some handler => do
    Proc.modify fun p => { p with setupCalls := p.setupCalls ++ [contract.name] }
    match handler with
    | .stopped => Proc.stop
    | _ => pure ()

/-- From the database setup to the start of the API server. -/
def prepare : Proc (Process V C) ForgeError (Wired V C) := do
  let _ ← onDatabase (buildIdStatus sha256 s.start r.config.database r.schema)
  Proc.ofExcept (s.cacheSetup.mapError fun e => .config ("Failed to set up cache store: " ++ e))
  let clients ← Proc.ofExcept (buildClients s.buildFromConfig r.config.chains)
  let wiring ← Proc.ofExcept
    (r.config.contracts.foldlM (wireContract parse r.config clients) Wiring.empty)
  Proc.forEach (runSetup r) r.config.contracts
  Proc.modify fun p => { p with server := .spawned }
  pure ⟨clients, r.coordinator s.toNode wiring⟩

/-- The keys of `chain_contracts`, in the order of the map. -/
def chainIds (co : BackfillCoordinator V) : List UInt64 :=
  s.order ((r.config.chains.map ChainConfig.chainId).dedup.filter fun chainId =>
    !(co.chainContracts chainId).isEmpty)

/-- The backfill of one chain. -/
def backfillChain (wired : Wired V C) (chainId : UInt64) : Proc (Process V C) ForgeError Unit :=
  match client wired.clients chainId with
  | none => pure ()
  | some c => do
    let currentBlock ← Proc.ofExcept ((s.blockNumber c).mapError fun e =>
      .rpc chainId ("Failed to get current block: " ++ e))
    Proc.mapErr (fun e => .config ("Backfill failed: " ++ e.display s.sqlx))
      (onWorld (wired.coordinator.runChain s.env chainId currentBlock))

/-- "Graceful shutdown", with the end of the server's task. -/
def shutdown : Proc (Process V C) ForgeError Unit := do
  let _ ← Proc.mapErr (fun e => .config ("Final flush failed: " ++ e.display s.sqlx))
    (onWorld ((WriteBuffer.new r.schema).flushAll s.env))
  Proc.ofExcept (s.releaseLock.mapError fun e => .config ("Lock release failed: " ++ e.display))
  Proc.modify fun p => { p with server := .stopped }

/-- SIGINT or SIGTERM.  A signal that is not caught ends the process.  The server that listens shuts
down with it, in whatever phase the run is; the run itself goes on unless it waits for the signal. -/
def Process.signal (p : Process V C) : Process V C :=
  if p.caught then
    { p with
      server := if p.server = .listening then .stopped else p.server
      phase := if p.phase = .waiting then .stopping else p.phase }
  else
    { p with
      server := .stopped
      phase := .ended .stopped }

/-- One step: the run finishes its next stage, the server's task binds its port or fails to, a signal
arrives, or a request for `/ready` is answered. -/
inductive Action where
  | advance
  | bind (succeeds : Bool)
  | signal
  | getReady
  deriving DecidableEq, Repr

def step (p : Process V C) : Action → Process V C
  | .advance =>
    match p.phase with
    | .starting => settle (fun w => .backfilling w (r.chainIds s w.coordinator))
        (prepare parse sha256 r s p)
    | .backfilling w (chainId :: chainIds) => settle (fun _ => .backfilling w chainIds)
        (backfillChain s w chainId p)
    | .backfilling _ [] => { p with
        ready := true
        phase := .waiting
        caught := true }
    | .waiting => p
    | .stopping => settle (fun _ => .ended (.ok ())) (shutdown r s p)
    | .ended _ => p
  | .bind succeeds =>
    if p.server = .spawned then { p with
      server := if succeeds then .listening else .stopped
      caught := p.caught || succeeds }
    else p
  | .signal => p.signal
  | .getReady => { p with
      replies := p.replies ++
        [if p.server = .listening then some (ForgeIndex.ready p.ready) else none] }

/-- The process after these steps. -/
def run (p : Process V C) (actions : List Action) : Process V C :=
  actions.foldl (step parse sha256 r s) p

section Stages

variable {parse sha256 r s}

open WriteBuffer (Holds)

/-- The setup returned with these clients and this coordinator, made from `wiring`. -/
structure WiredBy (parse : String → Except AbiError ParsedAbi) (r : ForgeIndexRunner V)
    (s : Surroundings V C) (w : Wired V C) (wiring : Wiring C) : Prop where
  clients : buildClients s.buildFromConfig r.config.chains = .ok w.clients
  wire : wire s.buildFromConfig parse r.config = .ok wiring
  coordinator : w.coordinator = r.coordinator s.toNode wiring

omit [DecidableEq V] in
theorem runSetup_triple (contract : Config.Contract) (p : Process V C) :
    Proc.Triple (fun p' => ∃ setupCalls, p' = { p with setupCalls }) (runSetup r contract)
      (fun _ p' => ∃ setupCalls, p' = { p with setupCalls })
      fun p' => ∃ setupCalls, p' = { p with setupCalls } := by
  unfold runSetup
  split
  · exact Proc.Triple.pure fun _ h => h
  · rename_i handler _
    refine Proc.Triple.bind (Proc.Triple.modify (Q := fun _ p' => ∃ setupCalls,
      p' = { p with setupCalls }) ?_) fun _ => ?_
    · intro p' ⟨setupCalls, hp⟩
      exact ⟨setupCalls ++ [contract.name], by rw [hp]⟩
    · split
      · exact Proc.Triple.stop fun _ h => h
      · exact Proc.Triple.pure fun _ h => h

variable (parse sha256 r s) in
omit [DecidableEq V] in
theorem prepare_spec (p : Process V C) :
    Proc.Post (fun w p' => (∃ wiring, WiredBy parse r s w wiring) ∧
        ∃ database setupCalls, p' = { p with database, setupCalls, server := .spawned })
      (fun p' => ∃ database setupCalls, p' = { p with database, setupCalls })
      (prepare parse sha256 r s p) := by
  -- each stage changes its own part of the process, and may be the last one
  have hdatabase : Proc.Triple (fun p' => p' = p)
      (onDatabase (buildIdStatus sha256 s.start r.config.database r.schema) :
        Proc (Process V C) ForgeError _)
      (fun _ p' => ∃ database, p' = { p with database }) fun p' => ∃ database,
        p' = { p with database } := Proc.Triple.within_any _ _ _ p
  have hkeep (p' : Process V C) (h : ∃ database, p' = { p with database }) :
      ∃ database setupCalls, p' = { p with database, setupCalls } := by
    obtain ⟨database, rfl⟩ := h
    exact ⟨database, p.setupCalls, rfl⟩
  refine ((hdatabase.conseq (fun _ h => h) (fun _ _ h => h) hkeep).bind fun _ => ?_) p rfl
  refine (Proc.Triple.ofExcept (Q := fun _ p' => ∃ database, p' = { p with database })
    (fun _ _ _ h => h) hkeep).bind fun _ => ?_
  refine (Proc.Triple.ofExcept (Q := fun clients p' =>
    buildClients s.buildFromConfig r.config.chains = .ok clients ∧
      ∃ database, p' = { p with database }) (fun _ hc _ h => ⟨hc, h⟩) hkeep).bind fun clients => ?_
  intro p' ⟨hclients, hp⟩
  refine ((Proc.Triple.ofExcept (Q := fun wiring p' =>
    r.config.contracts.foldlM (wireContract parse r.config clients) Wiring.empty = .ok wiring ∧
      ∃ database, p' = { p with database }) (fun _ hw _ h => ⟨hw, h⟩) hkeep).bind fun wiring => ?_)
    p' hp
  intro p'' ⟨hwiring, database, hp⟩
  have hwired : WiredBy parse r s ⟨clients, r.coordinator s.toNode wiring⟩ wiring := by
    refine ⟨hclients, ?_, rfl⟩
    unfold ForgeIndexRunner.wire
    rw [hclients]
    exact hwiring
  have hsetups : Proc.Triple (fun p' => ∃ setupCalls, p' = { p'' with setupCalls })
      (Proc.forEach (runSetup r) r.config.contracts)
      (fun _ p' => ∃ setupCalls, p' = { p'' with setupCalls })
      fun p' => ∃ setupCalls, p' = { p'' with setupCalls } :=
    Proc.Triple.forEach (I := fun _ p' => ∃ setupCalls, p' = { p'' with setupCalls })
      fun _ contract _ _ => runSetup_triple contract p''
  refine ((hsetups.conseq (fun _ h => h) (fun _ _ h => h) ?_).bind fun _ => ?_) p''
    ⟨p''.setupCalls, rfl⟩
  · intro q ⟨setupCalls, hq⟩
    exact ⟨database, setupCalls, by rw [hq, hp]⟩
  · refine (Proc.Triple.modify (Q := fun _ q => ∃ setupCalls,
      q = { p'' with setupCalls, server := .spawned }) ?_).bind fun _ => Proc.Triple.pure ?_
    · intro q ⟨setupCalls, hq⟩
      exact ⟨setupCalls, by rw [hq]⟩
    · intro q ⟨setupCalls, hq⟩
      exact ⟨⟨wiring, hwired⟩, database, setupCalls, by rw [hq, hp]⟩

/-- The backfill of a chain whose checkpoints are still those of `w₀`: the node has named a
block, and everything due up to it was handed out; the buffers are empty again. -/
def BackfilledIn (s : Surroundings V C) (w : Wired V C) (events : UInt64 → String → List DecodedEvent)
    (w₀ : World V) (chainId : UInt64) (handed : List (ℕ × DecodedEvent)) : Prop :=
  ∃ c currentBlock, client w.clients chainId = some c ∧ s.blockNumber c = .ok currentBlock ∧
    w.coordinator.HandsOut s.env events w₀ chainId currentBlock handed

theorem backfillChain_spec {chainLogs : C → List Log} (hnode : s.Serves chainLogs)
    {w : Wired V C} {wiring : Wiring C} (hw : WiredBy parse r s w wiring) {chainId : UInt64}
    (hchain : chainId ∈ r.config.chains.map ChainConfig.chainId) {p : Process V C} {w₀ : World V}
    (hw₀ : ∀ name, p.world.checkpoints (chainId, name) = w₀.checkpoints (chainId, name))
    (hempty : Holds p.world fun _ => []) :
    Proc.Post (fun _ p' => ∃ world, p' = { p with world } ∧ (Holds world fun _ => []) ∧
        BackfillCoordinator.OthersAs chainId p.world world ∧
        ∃ handed, BackfilledIn s w (eventsOf chainLogs wiring) w₀ chainId handed ∧
          world.dispatched = p.world.dispatched ++ handed)
      (fun p' => ∃ world, p' = { p with world }) (backfillChain s w chainId p) := by
  obtain ⟨chain, hmem, rfl⟩ := List.mem_map.mp hchain
  obtain ⟨c, hc⟩ := exists_client hw.clients hmem
  have hexact : w.coordinator.Exact chain.chainId (eventsOf chainLogs wiring chain.chainId) := by
    rw [hw.coordinator]
    exact r.coordinator_exact hnode hw.wire chain.chainId
  unfold backfillChain
  rw [hc]
  dsimp only
  refine (Proc.Triple.ofExcept (P := fun p' => p' = p) (Q := fun currentBlock p' =>
    s.blockNumber c = .ok currentBlock ∧ p' = p) ?_ ?_).bind (fun currentBlock => ?_) p rfl
  · intro currentBlock hblock p' hp
    refine ⟨?_, hp⟩
    cases hnumber : s.blockNumber c with
    | ok n =>
      rw [hnumber] at hblock
      cases hblock
      rfl
    | error e =>
      rw [hnumber] at hblock
      cases hblock
  · intro p' hp
    exact ⟨p.world, hp⟩
  · intro p' ⟨hblock, hp⟩
    -- the coordinator works on the world alone
    have hrun : Proc.Triple (fun world => world = p.world)
        (w.coordinator.runChain s.env chain.chainId currentBlock)
        (fun _ world => (Holds world fun _ => []) ∧
          BackfillCoordinator.OthersAs chain.chainId p.world world ∧
          ∃ handed, BackfilledIn s w (eventsOf chainLogs wiring) w₀ chain.chainId handed ∧
            world.dispatched = p.world.dispatched ++ handed) fun _ => True := by
      intro world hworld
      rw [hworld]
      have hframe := BackfillCoordinator.runChain_frame w.coordinator s.env chain.chainId
        currentBlock p.world p.world ⟨fun _ _ _ => rfl, hempty⟩
      rcases hend : w.coordinator.runChain s.env chain.chainId currentBlock p.world with
        ⟨_ | _ | _, world'⟩
      · rw [hend] at hframe
        obtain ⟨handed, hhands, hdispatched⟩ :=
          BackfillCoordinator.runChain_handsOut hexact hw₀ hend
        exact ⟨hframe.2, hframe.1, handed, ⟨c, currentBlock, hc, hblock, hhands⟩, hdispatched⟩
      · trivial
      · trivial
    exact (((hrun.within Process.world (fun p world => { p with world }) rfl).conseq
      (fun _ h => h) (fun _ _ h => h) fun q ⟨world, hq, _⟩ => ⟨world, hq⟩).mapErr) p' hp

theorem flushAll_idle (b : WriteBuffer) (env : Env V) {w : World V}
    (hempty : Holds w fun _ => []) :
    ∃ stats buffers, b.flushAll env w = (.ok stats, { w with buffers }) := by
  -- a table without rows is taken, and nothing is sent for it
  have htable (buffers : IndexMap String (List Row))
      (hb : Holds ({ w with buffers } : World V) fun _ => []) (table : String) :
      ∃ buffers', b.flushTable env table { w with buffers } = (.ok 0, { w with buffers := buffers' }) ∧
        Holds ({ w with buffers := buffers' } : World V) fun _ => [] := by
    unfold WriteBuffer.flushTable
    cases hget : buffers.get table with
    | none =>
      have htake : WriteBuffer.take table { w with buffers } = (.ok none, { w with buffers }) := by
        unfold WriteBuffer.take
        simp [hget]
      exact ⟨buffers, Proc.bind_of_ok htake, hb⟩
    | some rows =>
      have hrows : rows = [] := by
        have h := hb table
        unfold WriteBuffer.rowsOf at h
        rw [hget] at h
        exact h
      subst hrows
      have htake : WriteBuffer.take table { w with buffers } =
          (.ok (some []), { w with buffers := buffers.insert table [] }) := by
        unfold WriteBuffer.take
        simp [hget]
      refine ⟨buffers.insert table [], Proc.bind_of_ok htake, fun t => ?_⟩
      have hinsert := WriteBuffer.rowsOf_insert ({ w with buffers } : World V) table t []
      rw [hinsert]
      split_ifs
      · rfl
      · exact hb t
  have hloop (tables : List String) (stats : IndexMap String ℕ)
      (buffers : IndexMap String (List Row)) (hb : Holds ({ w with buffers } : World V) fun _ => []) :
      ∃ stats' buffers', Proc.foldEach (WriteBuffer.flushNext b env) stats tables
        { w with buffers } = (.ok stats', { w with buffers := buffers' }) := by
    induction tables generalizing stats buffers with
    | nil => exact ⟨stats, buffers, rfl⟩
    | cons table tables ih =>
      obtain ⟨buffers', hflush, hb'⟩ := htable buffers hb table
      obtain ⟨stats', buffers'', hrest⟩ := ih stats buffers' hb'
      refine ⟨stats', buffers'', ?_⟩
      have hnext : WriteBuffer.flushNext b env stats table { w with buffers } =
          (.ok stats, { w with buffers := buffers' }) := Proc.bind_of_ok hflush
      exact (Proc.bind_of_ok hnext).trans hrest
  exact hloop _ _ w.buffers hempty

theorem shutdown_eq {p : Process V C} (hempty : Holds p.world fun _ => []) :
    ∃ buffers, shutdown r s p = match s.releaseLock with
      | .ok _ => (.ok (), { p with world := { p.world with buffers }, server := .stopped })
      | .error e => (.err (.config ("Lock release failed: " ++ e.display)),
          { p with world := { p.world with buffers } }) := by
  obtain ⟨stats, buffers, hflush⟩ := flushAll_idle (WriteBuffer.new r.schema) s.env hempty
  have hstage : Proc.mapErr (fun e => ForgeError.config ("Final flush failed: " ++ e.display s.sqlx))
      (onWorld ((WriteBuffer.new r.schema).flushAll s.env)) p =
        (.ok stats, { p with world := { p.world with buffers } }) := by
    rw [Proc.mapErr_ok_iff]
    unfold onWorld Proc.within
    rw [hflush]
  refine ⟨buffers, ?_⟩
  unfold shutdown
  rw [Proc.bind_of_ok hstage]
  cases s.releaseLock <;> rfl

end Stages

section Run

variable {parse sha256 r s}

open WriteBuffer (Holds)

/-- The chains of `done` have been backfilled one after the other, and nothing else was handed
out since the world was `w₀`. -/
def HandedOut (s : Surroundings V C) (chainLogs : C → List Log) (wired : Wired V C)
    (wiring : Wiring C) (w₀ : World V) (done : List UInt64) (w : World V) : Prop :=
  ∃ parts : List (UInt64 × List (ℕ × DecodedEvent)), parts.map Prod.fst = done ∧
    w.dispatched = w₀.dispatched ++ parts.flatMap Prod.snd ∧
    ∀ part ∈ parts, BackfilledIn s wired (eventsOf chainLogs wiring) w₀ part.1 part.2

/-- Every chain with contracts has been backfilled, and nothing else was handed out. -/
def Indexed (parse : String → Except AbiError ParsedAbi) (r : ForgeIndexRunner V)
    (s : Surroundings V C) (chainLogs : C → List Log) (w₀ w : World V) : Prop :=
  ∃ wired wiring, WiredBy parse r s wired wiring ∧
    HandedOut s chainLogs wired wiring w₀ (r.chainIds s wired.coordinator) w

/-- The invariant of a run that started in `w₀`. -/
def Sound (parse : String → Except AbiError ParsedAbi) (r : ForgeIndexRunner V)
    (s : Surroundings V C) (chainLogs : C → List Log) (w₀ : World V) (p : Process V C) : Prop :=
  match p.phase with
  | .starting => p.ready = false ∧ p.world = w₀
  | .backfilling wired todo => p.ready = false ∧ (Holds p.world fun _ => []) ∧
      (∀ chainId ∈ todo, ∀ name,
        p.world.checkpoints (chainId, name) = w₀.checkpoints (chainId, name)) ∧
      ∃ wiring done, WiredBy parse r s wired wiring ∧
        r.chainIds s wired.coordinator = done ++ todo ∧
        HandedOut s chainLogs wired wiring w₀ done p.world
  | .waiting | .stopping => p.caught = true ∧ p.ready = true ∧ (Holds p.world fun _ => []) ∧
      Indexed parse r s chainLogs w₀ p.world
  | .ended _ => p.ready = true → Indexed parse r s chainLogs w₀ p.world

omit [DecidableEq V] in
theorem nodup_chainIds (co : BackfillCoordinator V) : (r.chainIds s co).Nodup :=
  (s.order_perm _).nodup_iff.mpr ((List.nodup_dedup _).filter _)

omit [DecidableEq V] in
theorem mem_config_of_mem_chainIds {co : BackfillCoordinator V} {chainId : UInt64}
    (h : chainId ∈ r.chainIds s co) : chainId ∈ r.config.chains.map ChainConfig.chainId :=
  List.mem_dedup.mp (List.mem_filter.mp ((s.order_perm _).mem_iff.mp h)).1

variable {chainLogs : C → List Log} {w₀ : World V}

omit [DecidableEq V] in
theorem HandedOut.snoc {wired : Wired V C} {wiring : Wiring C} {done : List UInt64} {w w' : World V}
    (h : HandedOut s chainLogs wired wiring w₀ done w) {chainId : UInt64}
    {handed : List (ℕ × DecodedEvent)}
    (hchain : BackfilledIn s wired (eventsOf chainLogs wiring) w₀ chainId handed)
    (hw : w'.dispatched = w.dispatched ++ handed) :
    HandedOut s chainLogs wired wiring w₀ (done ++ [chainId]) w' := by
  obtain ⟨parts, hdone, hdispatched, hall⟩ := h
  refine ⟨parts ++ [(chainId, handed)], by simp [hdone], ?_, fun part hpart => ?_⟩
  · rw [hw, hdispatched]
    simp
  · rcases List.mem_append.mp hpart with hpart | hpart
    · exact hall part hpart
    · rw [List.mem_singleton.mp hpart]
      exact hchain

omit [DecidableEq V] in
/-- The invariant does not read the state of the server and the answers that were given. -/
theorem Sound.served {p : Process V C} (h : Sound parse r s chainLogs w₀ p) (server : Server)
    {caught : Bool} (hcaught : p.caught = true → caught = true)
    (replies : List (Option (ℕ × ReadyResponse))) :
    Sound parse r s chainLogs w₀ { p with server, caught, replies } := by
  unfold Sound at h ⊢
  cases hphase : p.phase with
  | starting => simpa [hphase] using h
  | backfilling wired todo => simpa [hphase] using h
  | waiting =>
    rw [hphase] at h
    exact ⟨hcaught h.1, h.2⟩
  | stopping =>
    rw [hphase] at h
    exact ⟨hcaught h.1, h.2⟩
  | ended outcome => simpa [hphase] using h

omit [DecidableEq V] in
theorem sound_of_ended {p : Process V C} {outcome : Ended ForgeError Unit}
    (hphase : p.phase = .ended outcome) (h : p.ready = true → Indexed parse r s chainLogs w₀ p.world) :
    Sound parse r s chainLogs w₀ p := by
  unfold Sound
  rw [hphase]
  exact h

omit [DecidableEq V] in
theorem Sound.indexed {p : Process V C} (h : Sound parse r s chainLogs w₀ p)
    (hready : p.ready = true) : Indexed parse r s chainLogs w₀ p.world := by
  unfold Sound at h
  split at h
  · rw [h.1] at hready
    cases hready
  · rw [h.1] at hready
    cases hready
  · exact h.2.2.2
  · exact h.2.2.2
  · exact h hready

omit [DecidableEq V] in
theorem Sound.signal {p : Process V C} (h : Sound parse r s chainLogs w₀ p) :
    Sound parse r s chainLogs w₀ p.signal := by
  unfold Process.signal
  split_ifs with hcaught hwaiting
  · unfold Sound at h
    rw [hwaiting] at h
    exact h
  · unfold Sound at h
    rw [hwaiting] at h
    exact h
  · exact h.served .stopped id p.replies
  · exact h
  · exact sound_of_ended rfl h.indexed

theorem Sound.advance (hnode : s.Serves chainLogs) (hempty : Holds w₀ fun _ => [])
    {p : Process V C} (h : Sound parse r s chainLogs w₀ p) :
    Sound parse r s chainLogs w₀ (step parse sha256 r s p .advance) := by
  obtain ⟨phase, database, world, setupCalls, server, caught, isReady, replies⟩ := p
  cases phase with
  | starting =>
    obtain ⟨hready, hworld⟩ := h
    dsimp only at hready hworld
    subst hready hworld
    have hspec := prepare_spec parse sha256 r s
      ⟨.starting, database, world, setupCalls, server, caught, false, replies⟩
    unfold step
    dsimp only
    rcases hrun : prepare parse sha256 r s ⟨.starting, database, world, setupCalls, server, caught,
      false, replies⟩ with ⟨wired | e | _, p'⟩ <;> rw [hrun] at hspec
    · obtain ⟨⟨wiring, hwired⟩, database', setupCalls', hp⟩ := hspec
      subst hp
      exact ⟨rfl, hempty, fun _ _ _ => rfl, wiring, [], hwired, rfl, [], rfl,
        (List.append_nil _).symm, by simp⟩
    · obtain ⟨database', setupCalls', hp⟩ := hspec
      subst hp
      exact sound_of_ended rfl (by simp [settle])
    · obtain ⟨database', setupCalls', hp⟩ := hspec
      subst hp
      exact sound_of_ended rfl (by simp [settle])
  | backfilling wired todo =>
    obtain ⟨hready, hholds, hcheckpoints, wiring, done, hwired, hids, hdone⟩ := h
    dsimp only at hready hholds hcheckpoints hdone
    subst hready
    cases todo with
    | nil =>
      refine ⟨rfl, rfl, hholds, wired, wiring, hwired, ?_⟩
      rw [hids, List.append_nil]
      exact hdone
    | cons chainId todo =>
      have hnodup := nodup_chainIds (r := r) (s := s) wired.coordinator
      rw [hids] at hnodup
      have hmem : chainId ∈ r.chainIds s wired.coordinator := by
        rw [hids]
        simp
      have hspec := backfillChain_spec hnode hwired (mem_config_of_mem_chainIds hmem)
        (p := ⟨.backfilling wired (chainId :: todo), database, world, setupCalls, server, caught,
          false, replies⟩) (hcheckpoints chainId List.mem_cons_self) hholds
      unfold step
      dsimp only
      rcases hrun : backfillChain s wired chainId ⟨.backfilling wired (chainId :: todo), database,
        world, setupCalls, server, caught, false, replies⟩ with ⟨_ | e | _, p'⟩ <;> rw [hrun] at hspec
      · obtain ⟨world', hp, hholds', hothers, handed, hbackfilled, hdispatched⟩ := hspec
        subst hp
        refine ⟨rfl, hholds', fun other hother name => ?_, wiring, done ++ [chainId], hwired,
          by simp [hids], hdone.snoc hbackfilled hdispatched⟩
        -- the chains that are left are others, whose checkpoints this run does not touch
        have hne : other ≠ chainId := by
          intro heq
          subst heq
          have htail := (List.nodup_append.mp hnodup).2.1
          exact (List.nodup_cons.mp htail).1 hother
        exact (hothers other hne name).trans (hcheckpoints other (List.mem_cons_of_mem _ hother) name)
      · obtain ⟨world', hp⟩ := hspec
        subst hp
        exact sound_of_ended rfl (by simp [settle])
      · obtain ⟨world', hp⟩ := hspec
        subst hp
        exact sound_of_ended rfl (by simp [settle])
  | waiting => exact h
  | stopping =>
    obtain ⟨-, -, hholds, hindexed⟩ := h
    obtain ⟨buffers, hshutdown⟩ := shutdown_eq (r := r) (s := s)
      (p := ⟨.stopping, database, world, setupCalls, server, caught, isReady, replies⟩) hholds
    unfold step
    dsimp only
    rw [hshutdown]
    cases s.releaseLock with
    | ok _ => exact sound_of_ended rfl fun _ => hindexed
    | error e => exact sound_of_ended rfl fun _ => hindexed
  | ended outcome => exact h

theorem Sound.run (hnode : s.Serves chainLogs) (hempty : Holds w₀ fun _ => []) {p : Process V C}
    (h : Sound parse r s chainLogs w₀ p) (actions : List Action) :
    Sound parse r s chainLogs w₀ (run parse sha256 r s p actions) := by
  induction actions generalizing p with
  | nil => exact h
  | cons action actions ih =>
    apply ih
    cases action with
    | advance => exact h.advance hnode hempty
    | bind succeeds =>
      unfold step
      dsimp only
      split_ifs
      · refine h.served .listening (fun hcaught => ?_) p.replies
        rw [hcaught, Bool.true_or]
      · refine h.served .stopped (fun hcaught => ?_) p.replies
        rw [hcaught, Bool.true_or]
      · exact h
    | signal => exact h.signal
    | getReady => exact h.served p.server id _

theorem backfillChain_world (wired : Wired V C) (chainId : UInt64)
    (p : Process V C) :
    Proc.Triple (fun p' => p' = p) (backfillChain s wired chainId)
      (fun _ p' => ∃ world, p' = { p with world }) fun p' => ∃ world, p' = { p with world } := by
  have hsame (p' : Process V C) (hp : p' = p) : ∃ world, p' = { p with world } := ⟨p.world, hp⟩
  unfold backfillChain
  split
  · exact Proc.Triple.pure hsame
  · exact (Proc.Triple.ofExcept (Q := fun _ p' => p' = p) (fun _ _ _ hp => hp) hsame).bind
      fun _ => (Proc.Triple.within_any Process.world _ _ p).mapErr

theorem shutdown_world (p : Process V C) :
    Proc.Triple (fun p' => p' = p) (shutdown r s)
      (fun _ p' => ∃ world, p' = { p with world, server := .stopped })
      fun p' => ∃ world, p' = { p with world } := by
  refine (Proc.Triple.within_any Process.world _ _ p).mapErr.bind fun _ => ?_
  refine (Proc.Triple.ofExcept (Q := fun _ p' => ∃ world, p' = { p with world })
    (fun _ _ _ hp => hp) fun _ hp => hp).bind fun _ => Proc.Triple.modify fun p' ⟨world, hp⟩ => ?_
  exact ⟨world, by rw [hp]⟩

/-- The server has not bound its port. -/
def Server.early (server : Server) : Prop := server = .absent ∨ server = .spawned

/-- First no server listens, then the requests are told to wait, then they are told that the
indexer is ready, and after the end none listens again. -/
structure Answered (p : Process V C) (a b c d : ℕ) : Prop where
  replies : p.replies = List.replicate a none ++ (List.replicate b (some (ForgeIndex.ready false)) ++
    (List.replicate c (some (ForgeIndex.ready true)) ++ List.replicate d none))
  waits : p.ready = false → c = 0
  serves : p.server = .listening → d = 0
  silent : p.server.early → b = 0 ∧ c = 0 ∧ d = 0
  starts : p.phase = .starting → p.server = .absent

omit [DecidableEq V] in
theorem Answered.reply {p : Process V C} {a b c d : ℕ} (h : Answered p a b c d) :
    ∃ a b c d, Answered { p with
      replies := p.replies ++
        [if p.server = .listening then some (ForgeIndex.ready p.ready) else none] } a b c d := by
  obtain ⟨phase, database, world, setupCalls, server, caught, isReady, replies⟩ := p
  obtain ⟨hreplies, hwaits, hserves, hsilent, hstarts⟩ := h
  dsimp only at hreplies hwaits hserves hsilent hstarts
  cases server with
  | listening =>
    have hd := hserves rfl
    subst hd
    have hearly : ¬Server.listening.early := by simp [Server.early]
    cases isReady with
    | true =>
      refine ⟨a, b, c + 1, 0, ?_, nofun, fun _ => rfl, fun h => absurd h hearly, hstarts⟩
      simp [hreplies, List.replicate_succ']
    | false =>
      have hc := hwaits rfl
      subst hc
      refine ⟨a, b + 1, 0, 0, ?_, fun _ => rfl, fun _ => rfl, fun h => absurd h hearly, hstarts⟩
      simp [hreplies, List.replicate_succ']
  | stopped =>
    have hearly : ¬Server.stopped.early := by simp [Server.early]
    refine ⟨a, b, c, d + 1, ?_, hwaits, nofun, fun h => absurd h hearly, hstarts⟩
    simp [hreplies, List.replicate_succ']
  | absent =>
    obtain ⟨hb, hc, hd⟩ := hsilent (.inl rfl)
    subst hb hc hd
    refine ⟨a + 1, 0, 0, 0, ?_, fun _ => rfl, fun _ => rfl, fun _ => ⟨rfl, rfl, rfl⟩, hstarts⟩
    simp [hreplies, List.replicate_succ']
  | spawned =>
    obtain ⟨hb, hc, hd⟩ := hsilent (.inr rfl)
    subst hb hc hd
    refine ⟨a + 1, 0, 0, 0, ?_, fun _ => rfl, fun _ => rfl, fun _ => ⟨rfl, rfl, rfl⟩, hstarts⟩
    simp [hreplies, List.replicate_succ']

omit [DecidableEq V] in
/-- A step that gives no answer, takes no readiness back and starts the server once. -/
theorem Answered.keep {p p' : Process V C} {a b c d : ℕ} (h : Answered p a b c d)
    (hreplies : p'.replies = p.replies) (hready : p'.ready = false → p.ready = false)
    (hlistening : p'.server = .listening → p.server = .listening ∨ p.server.early)
    (hearly : p'.server.early → p.server.early)
    (hstarts : p'.phase = .starting → p'.server = .absent) :
    Answered p' a b c d where
  replies := hreplies.trans h.replies
  waits hp := h.waits (hready hp)
  serves hp := by
    rcases hlistening hp with hp | hp
    · exact h.serves hp
    · exact (h.silent hp).2.2
  silent hp := h.silent (hearly hp)
  starts := hstarts

theorem Answered.advance {p : Process V C} {a b c d : ℕ} (h : Answered p a b c d) :
    Answered (step parse sha256 r s p .advance) a b c d := by
  have hstopped : ¬Server.stopped.early := by simp [Server.early]
  unfold step
  cases hphase : p.phase with
  | starting =>
    have hspec := prepare_spec parse sha256 r s p
    dsimp only
    rcases hrun : prepare parse sha256 r s p with ⟨wired | e | _, p'⟩ <;> rw [hrun] at hspec
    · obtain ⟨-, database, setupCalls, hp⟩ := hspec
      subst hp
      have hearly : p.server.early := .inl (h.starts hphase)
      exact h.keep rfl id (fun hs => by simp [settle] at hs) (fun _ => hearly) (by simp [settle])
    · obtain ⟨database, setupCalls, hp⟩ := hspec
      subst hp
      exact h.keep rfl id .inl id (by simp [settle])
    · obtain ⟨database, setupCalls, hp⟩ := hspec
      subst hp
      exact h.keep rfl id (by simp [settle]) (fun hs => absurd hs hstopped) (by simp [settle])
  | backfilling wired todo =>
    cases todo with
    | nil => exact h.keep rfl nofun .inl id (by simp)
    | cons chainId todo =>
      have hspec := backfillChain_world (s := s) wired chainId p p rfl
      dsimp only
      rcases hrun : backfillChain s wired chainId p with ⟨_ | e | _, p'⟩ <;> rw [hrun] at hspec <;>
        obtain ⟨world, hp⟩ := hspec <;> subst hp
      · exact h.keep rfl id .inl id (by simp [settle])
      · exact h.keep rfl id .inl id (by simp [settle])
      · exact h.keep rfl id (by simp [settle]) (fun hs => absurd hs hstopped) (by simp [settle])
  | waiting => exact h.keep rfl id .inl id (by simp [hphase])
  | stopping =>
    have hspec := shutdown_world (r := r) (s := s) p p rfl
    dsimp only
    rcases hrun : shutdown r s p with ⟨_ | e | _, p'⟩ <;> rw [hrun] at hspec <;>
      obtain ⟨world, hp⟩ := hspec <;> subst hp
    · exact h.keep rfl id (by simp [settle]) (fun hs => absurd hs hstopped) (by simp [settle])
    · exact h.keep rfl id .inl id (by simp [settle])
    · exact h.keep rfl id (by simp [settle]) (fun hs => absurd hs hstopped) (by simp [settle])
  | ended outcome => exact h.keep rfl id .inl id (by simp [hphase])

omit [DecidableEq V] in
theorem Answered.signal {p : Process V C} {a b c d : ℕ} (h : Answered p a b c d) :
    Answered p.signal a b c d := by
  have hstopped : ¬Server.stopped.early := by simp [Server.early]
  unfold Process.signal
  split_ifs with hcaught hwaiting hlistening hlistening
  · exact h.keep rfl id nofun (fun hs => absurd hs hstopped) nofun
  · exact h.keep rfl id .inl id nofun
  · refine h.keep rfl id nofun (fun hs => absurd hs hstopped) fun hphase => ?_
    rw [h.starts hphase] at hlistening
    cases hlistening
  · exact h.keep rfl id .inl id h.starts
  · exact h.keep rfl id nofun (fun hs => absurd hs hstopped) nofun

theorem Answered.bind {p : Process V C} {a b c d : ℕ} (h : Answered p a b c d) (succeeds : Bool) :
    Answered (step parse sha256 r s p (.bind succeeds)) a b c d := by
  have hstopped : ¬Server.stopped.early := by simp [Server.early]
  have hlistening : ¬Server.listening.early := by simp [Server.early]
  unfold step
  dsimp only
  split_ifs with hspawned hsucceeds
  · refine h.keep rfl id (fun _ => .inr (.inr hspawned)) (fun hs => absurd hs hlistening)
      fun hphase => ?_
    rw [h.starts hphase] at hspawned
    cases hspawned
  · refine h.keep rfl id nofun (fun hs => absurd hs hstopped) fun hphase => ?_
    rw [h.starts hphase] at hspawned
    cases hspawned
  · exact h

variable (parse sha256 r s) in
theorem Answered.run {p : Process V C} {a b c d : ℕ} (h : Answered p a b c d)
    (actions : List Action) : ∃ a b c d, Answered (run parse sha256 r s p actions) a b c d := by
  induction actions generalizing p a b c d with
  | nil => exact ⟨a, b, c, d, h⟩
  | cons action actions ih =>
    cases action with
    | advance => exact ih h.advance
    | bind succeeds => exact ih (h.bind succeeds)
    | signal => exact ih h.signal
    | getReady =>
      obtain ⟨a', b', c', d', h'⟩ := h.reply
      exact ih h'

omit [DecidableEq V] in
theorem answered_started (database : PgState) (world : World V) :
    Answered (Process.started database world : Process V C) 0 0 0 0 :=
  ⟨rfl, fun _ => rfl, fun _ => rfl, fun _ => ⟨rfl, rfl, rfl⟩, fun _ => rfl⟩

/-- The requests for `/ready` get no answer at first, then 503, then 200, and none again, with
each part possibly empty. -/
theorem replies_in_order (database : PgState) (world : World V) (actions : List Action) :
    ∃ a b c d, (run parse sha256 r s (Process.started database world) actions).replies =
      List.replicate a none ++ (List.replicate b (some (ForgeIndex.ready false)) ++
        (List.replicate c (some (ForgeIndex.ready true)) ++ List.replicate d none)) := by
  obtain ⟨a, b, c, d, h⟩ := (answered_started database world).run parse sha256 r s actions
  exact ⟨a, b, c, d, h.replies⟩

theorem server_advance {p : Process V C} (h : p.server = .stopped) (hphase : p.phase ≠ .starting) :
    (step parse sha256 r s p .advance).server = .stopped ∧
      (step parse sha256 r s p .advance).phase ≠ .starting ∧
      (step parse sha256 r s p .advance).replies = p.replies := by
  unfold step
  cases hp : p.phase with
  | starting => exact absurd hp hphase
  | backfilling wired todo =>
    cases todo with
    | nil => exact ⟨h, nofun, rfl⟩
    | cons chainId todo =>
      have hspec := backfillChain_world (s := s) wired chainId p p rfl
      dsimp only
      rcases hrun : backfillChain s wired chainId p with ⟨_ | e | _, p'⟩ <;> rw [hrun] at hspec <;>
        obtain ⟨world, hp⟩ := hspec <;> subst hp
      · exact ⟨h, nofun, rfl⟩
      · exact ⟨h, nofun, rfl⟩
      · exact ⟨rfl, nofun, rfl⟩
  | waiting => exact ⟨h, by simp [hp], rfl⟩
  | stopping =>
    have hspec := shutdown_world (r := r) (s := s) p p rfl
    dsimp only
    rcases hrun : shutdown r s p with ⟨_ | e | _, p'⟩ <;> rw [hrun] at hspec <;>
      obtain ⟨world, hp⟩ := hspec <;> subst hp
    · exact ⟨rfl, nofun, rfl⟩
    · exact ⟨h, nofun, rfl⟩
    · exact ⟨rfl, nofun, rfl⟩
  | ended outcome => exact ⟨h, by simp [hp], rfl⟩

theorem replies_of_stopped {p : Process V C} (h : p.server = .stopped) (hphase : p.phase ≠ .starting)
    (actions : List Action) :
    ∃ n, (run parse sha256 r s p actions).replies = p.replies ++ List.replicate n none := by
  induction actions generalizing p with
  | nil => exact ⟨0, (List.append_nil _).symm⟩
  | cons action actions ih =>
    cases action with
    | advance =>
      obtain ⟨hserver, hnext, hreplies⟩ :
          (step parse sha256 r s p .advance).server = .stopped ∧
            (step parse sha256 r s p .advance).phase ≠ .starting ∧
            (step parse sha256 r s p .advance).replies = p.replies := server_advance h hphase
      rw [← hreplies]
      exact ih hserver hnext
    | bind succeeds =>
      have hsame : step parse sha256 r s p (.bind succeeds) = p := by
        unfold step
        dsimp only
        rw [h, if_neg nofun]
      show ∃ n, (run parse sha256 r s (step parse sha256 r s p (.bind succeeds)) actions).replies = _
      rw [hsame]
      exact ih h hphase
    | signal =>
      have hreplies : p.signal.replies = p.replies := by
        unfold Process.signal
        split_ifs <;> rfl
      have hserver : p.signal.server = .stopped := by
        unfold Process.signal
        split_ifs <;> simp [h]
      have hnext : p.signal.phase ≠ .starting := by
        unfold Process.signal
        split_ifs <;> simp [hphase]
      rw [← hreplies]
      exact ih hserver hnext
    | getReady =>
      have hanswer : (step parse sha256 r s p .getReady).replies = p.replies ++ [none] := by
        unfold step
        dsimp only
        rw [h, if_neg nofun]
      obtain ⟨n, hn⟩ := ih (p := step parse sha256 r s p .getReady) h hphase
      refine ⟨n + 1, hn.trans ?_⟩
      rw [hanswer, List.append_assoc, List.replicate_succ]
      rfl

end Run

/-- A node with one `Ping()` among its logs, whose newest block is the fifth. -/
def pingNode : Node Unit where
  getLogs _ filter := .ok ([BackfillWorker.pingLog].filter filter.selects)
  blockNumber _ := .ok 5
  fetch w range :=
    match w.fetchRange (fun _ f => Proc.ofExcept (.ok ([BackfillWorker.pingLog].filter f.selects)))
      range () with
    | (.ok events, _) => .ok events
    | (.err e, _) => .error e
    | (.stopped, _) => .error (.decode w.contract.name "")
  fetch_ok w range events h := by
    split at h
    · rename_i hfetch
      cases h
      exact ⟨_, hfetch⟩
    · cases h
    · cases h

theorem pingNode_serves : pingNode.Serves fun _ => [BackfillWorker.pingLog] := by
  intro c filter got hgot
  cases hgot
  exact List.Perm.refl _

/-- Everything outside the process answers, and the lock is released or not. -/
def pingSurroundings (releaseLock : Except DatabaseManager.Error Unit) : Surroundings String Unit where
  toNode := pingNode
  start := answeredStart
  env := plainEnv (transfers [])
  sqlx _ := ""
  cacheSetup := .ok ()
  buildFromConfig _ := .ok ()
  order chainIds := chainIds
  order_perm _ := List.Perm.refl _
  releaseLock := releaseLock

/-- An application with a handler for `Ping()`. -/
def pingRunner : ForgeIndexRunner String where
  config := localConfig none [BackfillWorker.pingContract (.single Address.zero)]
  schema := transfers []
  registry := EventRegistry.new.register "Pool:Ping" fun _ => .ok (.ok ())
  dbHandlers _ := none
  buildId := ""

/-- Its run on an empty database. -/
def pingRun (releaseLock : Except DatabaseManager.Error Unit) (actions : List Action) :
    Process String Unit :=
  run (fun _ => .ok BackfillWorker.pingAbi) transfersHash pingRunner (pingSurroundings releaseLock)
    (Process.started emptyDatabase (World.fresh String)) actions

/-- Setup, backfill and readiness, with a request before each of them and one at the end. -/
def pingActions : List Action :=
  [.getReady, .advance, .bind true, .getReady, .advance, .advance, .getReady]

example : (pingRun (.ok ()) pingActions).replies =
    [none, some (503, ⟨"syncing", some "Historical backfill in progress"⟩),
      some (200, ⟨"ready", none⟩)] := by decide +kernel

section Results

variable {parse sha256 r s} {chainLogs : C → List Log}

open WriteBuffer (Holds)

theorem sound_run_started (hnode : s.Serves chainLogs) (database : PgState) {world : World V}
    (hempty : Holds world fun _ => []) (actions : List Action) :
    Sound parse r s chainLogs world
      (run parse sha256 r s (Process.started database world) actions) := by
  apply Sound.run hnode hempty
  exact ⟨rfl, rfl⟩

/-- A signal that finds the run waiting takes the listening server down, and nobody is answered from
then on.  The shutdown finds every row flushed: it sends nothing, and its outcome is that of the
lock. -/
theorem shutdown_of_run (hnode : s.Serves chainLogs) {database : PgState} {world : World V}
    (hempty : Holds world fun _ => []) {actions : List Action}
    (hwaiting : (run parse sha256 r s (Process.started database world) actions).phase = .waiting)
    (hlistening : (run parse sha256 r s (Process.started database world) actions).server =
      .listening) :
    let p := run parse sha256 r s (Process.started database world) actions
    let p' := run parse sha256 r s p [.signal, .advance]
    (∃ buffers, p'.world = { p.world with buffers }) ∧
      (p'.phase = .ended (match s.releaseLock with
        | .ok _ => .ok ()
        | .error e => .err (.config ("Lock release failed: " ++ e.display)))) ∧
      ∀ later, ∃ n, (run parse sha256 r s p (.signal :: later)).replies =
        p.replies ++ List.replicate n none := by
  intro p p'
  have hsound : Sound parse r s chainLogs world p :=
    sound_run_started hnode database hempty actions
  unfold Sound at hsound
  rw [hwaiting] at hsound
  obtain ⟨hcaught, -, hholds, -⟩ := hsound
  -- the signal is caught: the server and the wait end together
  have hsignal : step parse sha256 r s p .signal =
      { p with
        server := .stopped
        phase := .stopping } := by
    show p.signal = _
    unfold Process.signal
    rw [if_pos hcaught, if_pos hlistening, if_pos hwaiting]
  have hstopping : Holds ({ p with
      server := .stopped
      phase := .stopping } : Process V C).world fun _ => [] := hholds
  obtain ⟨buffers, hshutdown⟩ := shutdown_eq (r := r) (s := s) hstopping
  have hstep : p' = settle (fun _ => .ended (.ok ())) (shutdown r s { p with
      server := .stopped
      phase := .stopping }) := by
    show step parse sha256 r s (step parse sha256 r s p .signal) .advance = _
    rw [hsignal]
    rfl
  refine ⟨?_, ?_, fun later => ?_⟩
  · rw [hstep, hshutdown]
    cases s.releaseLock <;> exact ⟨buffers, rfl⟩
  · rw [hstep, hshutdown]
    cases s.releaseLock <;> rfl
  · show ∃ n, (run parse sha256 r s (step parse sha256 r s p .signal) later).replies = _
    rw [hsignal]
    exact replies_of_stopped rfl (by simp) later

/-- A lock that is not released. -/
theorem shutdown_of_run_refused :
    let p := pingRun (.error (.migration "connection reset")) pingActions
    let surroundings := pingSurroundings (.error (.migration "connection reset"))
    let p' := run (fun _ => .ok BackfillWorker.pingAbi) transfersHash pingRunner surroundings p
      [.signal, .advance]
    (∃ buffers, p'.world = { p.world with buffers }) ∧
      (p'.phase = .ended (match surroundings.releaseLock with
        | .ok _ => .ok ()
        | .error e => .err (.config ("Lock release failed: " ++ e.display)))) ∧
      ∀ later, ∃ n, (run (fun _ => .ok BackfillWorker.pingAbi) transfersHash pingRunner surroundings p
        (.signal :: later)).replies = p.replies ++ List.replicate n none := by
  have hwaiting : (pingRun (.error (.migration "connection reset")) pingActions).phase = .waiting := by
    decide +kernel
  have hlistening : (pingRun (.error (.migration "connection reset")) pingActions).server =
      .listening := by
    decide +kernel
  have hempty : Holds (World.fresh String) fun _ => [] := fun _ => rfl
  exact shutdown_of_run pingNode_serves hempty hwaiting hlistening

end Results

end ForgeIndexRunner

end ForgeIndex
