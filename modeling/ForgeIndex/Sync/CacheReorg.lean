import ForgeIndex.Rpc.BlockCache
import ForgeIndex.Sync.Realtime

/-!
# The cache across reorgs

`handle_reorg` rolls the tables of the indexer back and leaves the tables of the RPC cache as they
are.  A cached block is the one that was canonical at its first read, and the logs are right as
long as the chain has not changed an answer that was given before.
-/

namespace ForgeIndex

open FirstOwner

variable {V : Type}

/-- The chain that a node answers from. -/
structure NodeChain (chainId : UInt64) where
  logs : Chain
  block : UInt64 → Option Block
  logs_chainId : logs.chainId = chainId
  number_eq : ∀ n b, block n = some b → b.number = n
  chainId_eq : ∀ n b, block n = some b → b.chainId = chainId

/-- What the node answers for a block; `notFound` is the error for a block that the chain does not
have. -/
def NodeChain.answerBlock {ε : Type} {chainId : UInt64} (node : NodeChain chainId) (notFound : ε)
    (n : UInt64) : Except ε Block :=
  match node.block n with
  | some b => .ok b
  | none => .error notFound

/-- A cached client, the node behind it and the indexer's process. -/
structure CacheState (V : Type) (chainId : UInt64) where
  cache : BlockCache
  node : NodeChain chainId
  world : World V

/-- What happens: reads through the cached client, new blocks, and reorgs. -/
inductive CacheEvent (chainId : UInt64) where
  | readBlock (n : UInt64)
  | readLogs (f : LogFilter)
  | extend (node : NodeChain chainId)
  | reorg (forkBlock newTip : UInt64) (node : NodeChain chainId)

namespace CacheState

variable {chainId : UInt64}

/-- A process on the cache alone. -/
def onCache {ε α : Type} (m : Proc BlockCache ε α) : Proc (CacheState V chainId) ε α := fun s =>
  let r := m s.cache
  (r.1, { s with cache := r.2 })

/-- A process on the world alone. -/
def onWorld {ε α : Type} (m : Proc (World V) ε α) : Proc (CacheState V chainId) ε α := fun s =>
  let r := m s.world
  (r.1, { s with world := r.2 })

end CacheState

section Runs

variable (keccak256 : Bytes → Hash32) (fate : ℕ → Fate) {ε : Type} (notFound : ε)
  {chainId : UInt64}

/-- `get_block_by_number` in a state. -/
def blockRead (n : UInt64) : Proc (CacheState V chainId) ε Block := do
  let s ← Proc.get
  CacheState.onCache
    (CachedRpcClient.getBlockByNumber keccak256 fate (s.node.answerBlock notFound) chainId n)

/-- `get_logs` in a state. -/
def logsRead (f : LogFilter) : Proc (CacheState V chainId) ε (List Log) := do
  let s ← Proc.get
  CacheState.onCache (BlockCache.onRpc (CachedRpcClient.getLogs keccak256 fate
    (fun f => .ok (s.node.logs.answer f)) chainId f))

variable [DecidableEq V] (handler : ReorgHandler) (buffer : WriteBuffer) (env : Env V)

/-- One event; an error of a read goes to its caller. -/
def CacheEvent.perform : CacheEvent chainId → Proc (CacheState V chainId) SyncError Unit
  | .readBlock n => Proc.ignore (blockRead keccak256 fate notFound n)
  | .readLogs f => Proc.ignore (logsRead keccak256 fate f : Proc _ ε _)
  | .extend node => Proc.modify fun s => { s with node }
  | .reorg forkBlock newTip node => do
    Proc.modify fun s => { s with node }
    let _ ← CacheState.onWorld (handler.handleReorg buffer env chainId forkBlock newTip)
    pure ()

/-- The state after an event. -/
def CacheEvent.Leads (s s' : CacheState V chainId) : CacheEvent chainId → Prop
  | .readBlock n => s' = (blockRead keccak256 fate notFound n s).2
  | .readLogs f => s' = ((logsRead keccak256 fate f : Proc _ ε _) s).2
  | .extend node => s' = { s with node }
  | .reorg _ _ node => ∃ world, s' = { s with node, world }

/-- A sequence of events. -/
def runCache (events : List (CacheEvent chainId)) : Proc (CacheState V chainId) SyncError Unit :=
  Proc.forEach (CacheEvent.perform keccak256 fate notFound handler buffer env) events

end Runs

section Past

variable {chainId : UInt64}

/-- The block as the chain had it when it was first read. -/
def firstRead : NodeChain chainId → List (CacheEvent chainId) → UInt64 → Option Block
  | _, [], _ => none
  | node, .readBlock n :: events, k =>
    (if k = n then node.block n else none).or (firstRead node events k)
  | node, .readLogs _ :: events, k => firstRead node events k
  | _, .extend node :: events, k => firstRead node events k
  | _, .reorg _ _ node :: events, k => firstRead node events k

/-- The filters that were asked for. -/
def askedFilters (events : List (CacheEvent chainId)) : List LogFilter :=
  events.filterMap fun event => match event with
    | .readLogs f => some f
    | _ => none

/-- No change of the chain changes an answer that was given before, and no filter meets rows of its
own columns that are not its answer. -/
def LogsUndisturbed (keccak256 : Bytes → Hash32) :
    NodeChain chainId → List LogFilter → List (CacheEvent chainId) → Prop
  | _, _, [] => True
  | node, past, .readBlock _ :: events => LogsUndisturbed keccak256 node past events
  | node, past, .readLogs f :: events =>
    Clean (logSource keccak256 node.logs) past f ∧
      LogsUndisturbed keccak256 node (past ++ [f]) events
  | node, past, .extend node' :: events =>
    (∀ f ∈ past, node'.logs.answer f = node.logs.answer f) ∧
      LogsUndisturbed keccak256 node' past events
  | node, past, .reorg _ _ node' :: events =>
    (∀ f ∈ past, node'.logs.answer f = node.logs.answer f) ∧
      LogsUndisturbed keccak256 node' past events

end Past

section Moves

variable {keccak256 : Bytes → Hash32} {chain chain' : Chain} {past : List LogFilter}

theorem picks_iff_answer (f : LogFilter) (x : Option Log) :
    (logSource keccak256 chain).picks f x ↔ x ∈ itemsOf (chain.answer f) :=
  (mem_itemsOf_answer keccak256 f x).symm

theorem owner_congr (hchain : chain'.chainId = chain.chainId)
    (hsame : ∀ f ∈ past, chain'.answer f = chain.answer f) :
    owner (logSource keccak256 chain') past = owner (logSource keccak256 chain) past := by
  have hkey : (logSource keccak256 chain').key = (logSource keccak256 chain).key := by
    unfold logSource
    rw [hchain]
  funext x
  unfold owner
  rw [hkey]
  congr 1
  induction past with
  | nil => rfl
  | cons f past ih =>
    have hpick : (logSource keccak256 chain').picks f x ↔ (logSource keccak256 chain).picks f x := by
      rw [picks_iff_answer, picks_iff_answer, hsame f List.mem_cons_self]
    rw [List.find?_cons, List.find?_cons, ih fun g hg => hsame g (List.mem_cons_of_mem _ hg)]
    by_cases hx : (logSource keccak256 chain).picks f x
    · simp [hx, hpick.mpr hx]
    · simp [hx, mt hpick.mp hx]

/-- The table stays that of the filters of the past when the chain keeps their answers. -/
theorem Stored.move {rows : List LogRow} (hchain : chain'.chainId = chain.chainId)
    (hsame : ∀ f ∈ past, chain'.answer f = chain.answer f)
    (h : Stored keccak256 chain (owner (logSource keccak256 chain) past) rows) :
    Stored keccak256 chain' (owner (logSource keccak256 chain') past) rows := by
  rw [owner_congr hchain hsame]
  refine ⟨h.mem_iff, h.nodup, fun x columns hx l hl => ?_, fun x columns hx => ?_⟩
  · subst hl
    unfold owner at hx
    obtain ⟨f, hf, -⟩ := Option.map_eq_some_iff.mp hx
    have hpick : (logSource keccak256 chain).picks f (some l) :=
      by simpa using List.find?_some hf
    have hmem : l ∈ chain.answer f := List.mem_filter.mpr hpick
    rw [← hsame f (List.mem_of_find?_eq_some hf)] at hmem
    exact (List.mem_filter.mp hmem).1
  · rw [hchain]
    exact h.chainId x columns hx

end Moves

section Following

variable {keccak256 : Bytes → Hash32} {fate : ℕ → Fate} {ε : Type} {notFound : ε}
  {chainId : UInt64} (hfate : ∀ n, fate n = .executed)

theorem answerBlock_ok {node : NodeChain chainId} {n : UInt64} {b : Block}
    (h : node.answerBlock notFound n = .ok b) : node.block n = some b := by
  unfold NodeChain.answerBlock at h
  split at h
  · rename_i b' hb
    cases h
    exact hb
  · cases h

theorem toOption_answerBlock (node : NodeChain chainId) (n : UInt64) :
    (node.answerBlock notFound n).toOption = node.block n := by
  unfold NodeChain.answerBlock
  cases node.block n <;> rfl

include hfate

variable (notFound) in
/-- A read of a block returns the held one if there is one, and holds the answer otherwise. -/
theorem blockRead_step (n : UInt64) {held : UInt64 → Option Block} {s : CacheState V chainId}
    (h : HoldsBlocks keccak256 chainId held s.cache.blocks) :
    ∃ r cache, blockRead keccak256 fate notFound n s = (r, { s with cache }) ∧
      (r = match (held n).or (s.node.block n) with
        | some b => .ok b
        | none => .err notFound) ∧
      HoldsBlocks keccak256 chainId (fun k => (held k).or (if k = n then s.node.block n else none))
        cache.blocks ∧ cache.rpc.logs = s.cache.rpc.logs := by
  have hinner : ∀ b, s.node.answerBlock notFound n = .ok b → b.number = n ∧ b.chainId = chainId :=
    fun b hb => ⟨s.node.number_eq n b (answerBlock_ok hb), s.node.chainId_eq n b (answerBlock_ok hb)⟩
  obtain ⟨hans, hheld, hlogs⟩ := getBlockByNumber_step keccak256 hfate n hinner h
  rw [toOption_answerBlock] at hheld
  refine ⟨_, _, rfl, hans.trans ?_, hheld, hlogs⟩
  unfold NodeChain.answerBlock
  cases held n with
  | some b => rfl
  | none => cases s.node.block n <;> rfl

/-- A read of logs is right exactly when its filter is clean, and then it stores its answer. -/
theorem logsRead_step (f : LogFilter) {past : List LogFilter} {s : CacheState V chainId}
    (h : Stored keccak256 s.node.logs (owner (logSource keccak256 s.node.logs) past)
      s.cache.rpc.logs) :
    ∃ ans cache, (logsRead keccak256 fate f : Proc _ ε _) s = (.ok ans, { s with cache }) ∧
      (ans = s.node.logs.answer f ↔ Clean (logSource keccak256 s.node.logs) past f) ∧
      (Clean (logSource keccak256 s.node.logs) past f →
        Stored keccak256 s.node.logs (owner (logSource keccak256 s.node.logs) (past ++ [f]))
          cache.rpc.logs) ∧
      cache.blocks = s.cache.blocks := by
  let inner : LogFilter → Except ε (List Log) := fun f => .ok (s.node.logs.answer f)
  have hinner : inner f = .ok (s.node.logs.answer f) := rfl
  obtain ⟨ans, rpc, hget, hans, hstored⟩ := getLogs_step keccak256 s.node.logs hfate f hinner h
  rw [step_answer_iff] at hans
  rw [s.node.logs_chainId] at hget
  refine ⟨ans, { s.cache with rpc }, ?_, hans, fun hclean => ?_, rfl⟩
  · change CacheState.onCache _ s = _
    unfold CacheState.onCache
    rw [onRpc_of_ok hget]
  · rw [step_store (step_answer_iff.mpr hclean)] at hstored
    exact hstored

variable [DecidableEq V] {handler : ReorgHandler} {buffer : WriteBuffer} {env : Env V}

omit hfate in
/-- What an event does to the state; `handle_reorg` does not come near the cache. -/
theorem leads_of_perform {event : CacheEvent chainId} {s s' : CacheState V chainId}
    (h : event.perform keccak256 fate notFound handler buffer env s = (.ok (), s')) :
    event.Leads keccak256 fate notFound s s' := by
  have hs := congrArg Prod.snd h
  cases event with
  | readBlock n => exact hs.symm.trans (Proc.snd_ignore _ s)
  | readLogs f => exact hs.symm.trans (Proc.snd_ignore _ s)
  | extend node => exact hs.symm
  | reorg forkBlock newTip node =>
    obtain ⟨_, s₁, hmodify, h⟩ := Proc.bind_ok_iff.mp h
    obtain ⟨n, s₂, hhandle, hdone⟩ := Proc.bind_ok_iff.mp h
    cases hmodify
    cases hdone
    exact ⟨_, (congrArg Prod.snd hhandle).symm⟩

theorem holds_of_runCache {events : List (CacheEvent chainId)} {s s' : CacheState V chainId}
    {held : UInt64 → Option Block} (h : HoldsBlocks keccak256 chainId held s.cache.blocks)
    (hrun : runCache keccak256 fate notFound handler buffer env events s = (.ok (), s')) :
    HoldsBlocks keccak256 chainId (fun k => (held k).or (firstRead s.node events k)) s'.cache.blocks := by
  induction events generalizing s held with
  | nil =>
    cases hrun
    simpa [firstRead] using h
  | cons event events ih =>
    obtain ⟨s₁, hfirst, hrest⟩ := Proc.forEach_cons_ok_iff.mp hrun
    have hstep := leads_of_perform hfirst
    cases event with
    | readBlock n =>
      obtain ⟨r, cache, hread, -, hheld, -⟩ := blockRead_step notFound hfate n h
      have hs₁ : s₁ = { s with cache } := hstep.trans (congrArg Prod.snd hread)
      subst hs₁
      have hblocks := ih hheld hrest
      simp only [Option.or_assoc] at hblocks
      exact hblocks
    | readLogs f =>
      have hblocks : s₁.cache.blocks = s.cache.blocks ∧ s₁.node = s.node := by
        rw [hstep]
        exact ⟨rfl, rfl⟩
      rw [← hblocks.1] at h
      have hall := ih h hrest
      rw [hblocks.2] at hall
      exact hall
    | extend node =>
      have hs₁ : s₁ = { s with node } := hstep
      subst hs₁
      exact ih (s := { s with node }) h hrest
    | reorg forkBlock newTip node =>
      obtain ⟨world, rfl⟩ := hstep
      exact ih (s := { s with node, world }) h hrest

theorem stored_of_runCache {events : List (CacheEvent chainId)} {s s' : CacheState V chainId}
    {held : UInt64 → Option Block} (hheld : HoldsBlocks keccak256 chainId held s.cache.blocks)
    {past : List LogFilter}
    (h : Stored keccak256 s.node.logs (owner (logSource keccak256 s.node.logs) past)
      s.cache.rpc.logs)
    (hquiet : LogsUndisturbed keccak256 s.node past events)
    (hrun : runCache keccak256 fate notFound handler buffer env events s = (.ok (), s')) :
    Stored keccak256 s'.node.logs
      (owner (logSource keccak256 s'.node.logs) (past ++ askedFilters events))
      s'.cache.rpc.logs := by
  induction events generalizing s held past with
  | nil =>
    cases hrun
    simpa [askedFilters] using h
  | cons event events ih =>
    obtain ⟨s₁, hfirst, hrest⟩ := Proc.forEach_cons_ok_iff.mp hrun
    have hstep := leads_of_perform hfirst
    cases event with
    | readBlock n =>
      obtain ⟨r, cache, hread, -, hnext, hlogs⟩ :=
        blockRead_step notFound hfate n hheld
      have hs₁ : s₁ = { s with cache } := hstep.trans (congrArg Prod.snd hread)
      subst hs₁
      exact ih (s := { s with cache }) hnext (by rw [hlogs]; exact h) hquiet hrest
    | readLogs f =>
      obtain ⟨hclean, hquiet⟩ := hquiet
      obtain ⟨ans, cache, hread, -, hkept, hblocks⟩ := logsRead_step (ε := ε) hfate f h
      have hs₁ : s₁ = { s with cache } := hstep.trans (congrArg Prod.snd hread)
      subst hs₁
      have hall := ih (s := { s with cache }) (by rw [hblocks]; exact hheld) (hkept hclean) hquiet
        hrest
      rw [List.append_assoc] at hall
      exact hall
    | extend node =>
      obtain ⟨hsame, hquiet⟩ := hquiet
      have hs₁ : s₁ = { s with node } := hstep
      subst hs₁
      have hmoved := h.move (node.logs_chainId.trans s.node.logs_chainId.symm) hsame
      exact ih (s := { s with node }) hheld hmoved hquiet hrest
    | reorg forkBlock newTip node =>
      obtain ⟨hsame, hquiet⟩ := hquiet
      obtain ⟨world, rfl⟩ := hstep
      have hmoved := h.move (node.logs_chainId.trans s.node.logs_chainId.symm) hsame
      exact ih (s := { s with node, world }) hheld hmoved hquiet hrest

/-- A read of block `n` in this state returns the block of the chain. -/
def BlockRight (keccak256 : Bytes → Hash32) (fate : ℕ → Fate) (notFound : ε)
    (s : CacheState V chainId) (n : UInt64) : Prop :=
  (blockRead keccak256 fate notFound n s).1 =
    match s.node.block n with
    | some b => .ok b
    | none => .err notFound

/-- A read of logs in this state returns the logs of the chain. -/
def LogsRight (ε : Type) (keccak256 : Bytes → Hash32) (fate : ℕ → Fate)
    (s : CacheState V chainId) (f : LogFilter) : Prop :=
  ((logsRead keccak256 fate f : Proc _ ε _) s).1 = .ok (s.node.logs.answer f)

/-- After any run of reads, new blocks and reorgs a block is read as the chain has it if and only
if the chain still has the block that was read first.  After a run in which no change of the chain
changes an answer that was given, the logs are read right if and only if the filter is clean. -/
theorem runCache_follows_iff {events : List (CacheEvent chainId)} {s₀ s : CacheState V chainId}
    (hempty : s₀.cache = BlockCache.empty)
    (hrun : runCache keccak256 fate notFound handler buffer env events s₀ = (.ok (), s)) :
    (∀ n, BlockRight keccak256 fate notFound s n ↔
      ∀ b, firstRead s₀.node events n = some b → s.node.block n = some b) ∧
    (LogsUndisturbed keccak256 s₀.node [] events →
      ∀ f, LogsRight ε keccak256 fate s f ↔
        Clean (logSource keccak256 s.node.logs) (askedFilters events) f) := by
  have hnone : HoldsBlocks keccak256 chainId (fun _ => none) s₀.cache.blocks := by
    rw [hempty]
    exact holds_empty
  have hheld := holds_of_runCache hfate hnone hrun
  constructor
  · intro n
    obtain ⟨r, cache, hread, hr, -, -⟩ := blockRead_step notFound hfate n hheld
    unfold BlockRight
    rw [hread, hr]
    dsimp only
    rw [Option.none_or]
    cases hfirst : firstRead s₀.node events n with
    | none => simp
    | some b =>
      rw [Option.some_or]
      cases hnode : s.node.block n with
      | none => simp
      | some b' => simp [eq_comm]
  · intro hquiet f
    have hstart : Stored keccak256 s₀.node.logs (owner (logSource keccak256 s₀.node.logs) [])
        s₀.cache.rpc.logs := by
      rw [hempty]
      exact stored_empty
    have hstored := stored_of_runCache hfate hnone hstart hquiet hrun
    rw [List.nil_append] at hstored
    obtain ⟨ans, cache, hread, hans, -, -⟩ := logsRead_step (ε := ε) hfate f hstored
    unfold LogsRight
    rw [hread, ← hans]
    simp

end Following

/-- The first log of block 3 only. -/
def shortChain : Chain where
  chainId := 1
  logs := [firstLogOf 3]
  ordered := by decide
  id_eq := by decide +kernel
  chainId_eq := by decide
  block_lt := by decide
  index_lt := by decide

/-- A node on chain 1 whose blocks have the given hashes. -/
def nodeOf (logs : Chain) (h : logs.chainId = 1) (hashes : UInt64 → UInt8) : NodeChain 1 where
  logs := logs
  block n := some (RealtimeProcessor.blockAt n (hashes n) 0)
  logs_chainId := h
  number_eq _ _ hb := by cases hb; rfl
  chainId_eq _ _ hb := by cases hb; rfl

/-- Before a reorg at block 7. -/
def nodeBefore : NodeChain 1 := nodeOf smallChain rfl fun _ => 1

/-- After it block 7 is another one, and its log is gone. -/
def nodeAfter : NodeChain 1 := nodeOf shortChain rfl fun n => if n = 7 then 2 else 1

/-- A client on empty tables. -/
def emptyCache : CacheState String 1 := ⟨BlockCache.empty, nodeBefore, World.fresh String⟩

/-- The state after events on empty tables. -/
def stateAfter (events : List (CacheEvent 1)) : CacheState String 1 :=
  (runCache keccakOfZeros (fun _ => .executed) () ⟨[]⟩ (WriteBuffer.new ⟨[]⟩) (plainEnv ⟨[]⟩) events
    emptyCache).2

theorem clean_of_columns_ne {keccak256 : Bytes → Hash32} {chain : Chain} {past : List LogFilter}
    {f : LogFilter} (h : ∀ g ∈ past, filterColumns keccak256 chain.chainId g ≠
      filterColumns keccak256 chain.chainId f) : Clean (logSource keccak256 chain) past f := by
  rintro ⟨x, hx⟩
  unfold owner at hx
  obtain ⟨g, hg, hkey⟩ := Option.map_eq_some_iff.mp hx
  exact absurd hkey (h g (List.mem_of_find?_eq_some hg))

/-- What was read before the reorg lies below it. -/
theorem runCache_follows_iff_below :
    let s := stateAfter [.readBlock 3, .readLogs (blocksFilter 3 3), .reorg 7 7 nodeAfter]
    BlockRight keccakOfZeros (fun _ => .executed) () s 7 ∧
      LogsRight Unit keccakOfZeros (fun _ => .executed) s (blocksFilter 7 7) := by
  intro s
  have hrun : (runCache keccakOfZeros (fun _ => .executed) () ⟨[]⟩ (WriteBuffer.new ⟨[]⟩)
      (plainEnv ⟨[]⟩) [.readBlock 3, .readLogs (blocksFilter 3 3), .reorg 7 7 nodeAfter]
      emptyCache).1 = .ok () := by decide +kernel
  obtain ⟨hblock, hlogs⟩ := runCache_follows_iff (fun _ => rfl) rfl (Proc.eq_ok_of_fst hrun)
  have hnode : s.node = nodeAfter := rfl
  refine ⟨(hblock 7).mpr fun b hb => ?_, (hlogs ?_ _).mpr ?_⟩
  · cases hb
  · refine ⟨clean_of_columns_ne (by simp), ?_, trivial⟩
    intro f hf
    rw [List.mem_singleton.mp hf]
    decide
  · apply clean_of_columns_ne
    intro g hg
    rw [List.mem_singleton.mp hg]
    decide

/-- Block 7 and its log are read, replaced by a reorg at block 7 that is handled, and read again:
the old block and the old log come back. -/
theorem runCache_not_follows :
    let s := stateAfter [.readBlock 7, .readLogs (blocksFilter 7 7), .reorg 7 7 nodeAfter]
    ¬BlockRight keccakOfZeros (fun _ => .executed) () s 7 ∧
      ¬LogsRight Unit keccakOfZeros (fun _ => .executed) s (blocksFilter 7 7) := by
  unfold BlockRight LogsRight
  decide +kernel

end ForgeIndex
