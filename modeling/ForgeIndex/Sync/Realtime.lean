import ForgeIndex.Backfill.Order
import ForgeIndex.Sync.Detector
import ForgeIndex.Sync.Reorg

/-!
# The realtime processor

`forge-index-sync/src/realtime/processor.rs`: the loop over the heads of a chain.  What the node
answers may change from head to head, so the workers and the detector's client are read at the
index of the head.  The counter of the loop feeds a log line only and is left out.
-/

namespace ForgeIndex

variable {V : Type}

structure RealtimeProcessor where
  workers : List (ℕ → FetchRange)
  clients : ℕ → BlockClients
  reorgHandler : ReorgHandler
  registry : String → Option LegacyHandler
  writeBuffer : WriteBuffer
  chainId : UInt64

/-- What the loop works on: the process with its database, the detector, and the heads it has
decided on. -/
structure RealtimeState (V : Type) where
  world : World V
  detector : ReorgDetector
  heads : List (Block × ReorgDecision)

namespace RealtimeState

/-- A process on the world alone. -/
def onWorld {ε α : Type} (m : Proc (World V) ε α) : Proc (RealtimeState V) ε α := fun s =>
  let r := m s.world
  (r.1, { s with world := r.2 })

theorem onWorld_ok {ε α : Type} {m : Proc (World V) ε α} {s s' : RealtimeState V} {a : α}
    (h : onWorld m s = (.ok a, s')) : ∃ w, m s.world = (.ok a, w) ∧ s' = { s with world := w } := by
  unfold onWorld at h
  rcases hm : m s.world with ⟨r, w⟩
  rw [hm] at h
  cases h
  exact ⟨w, rfl, rfl⟩

end RealtimeState

namespace RealtimeProcessor

open RealtimeState

/-- The events that the workers return for one block while the i-th head is handled; a worker
that fails is logged and adds none. -/
def fetchBlock (rp : RealtimeProcessor) (i : ℕ) (number : UInt64) : List DecodedEvent :=
  rp.workers.flatMap fun worker => ((worker i ⟨number, number⟩).toOption).getD []

/-- `sort_by_key(|e| e.raw_log.log_index)`. -/
def sortByLogIndex (events : List DecodedEvent) : List DecodedEvent :=
  events.insertionSort fun a b => a.rawLog.logIndex ≤ b.rawLog.logIndex

/-- The call of a handler of the registry. -/
def callHandler (rp : RealtimeProcessor) (e : DecodedEvent) : Proc (World V) SyncError Unit :=
  match rp.registry e.handlerKey with
  | some handler =>
    match handler e with
    | .error message => Proc.fail (.handlerPanic e.handlerKey message)
    | .ok .stopped => Proc.stop
    | .ok _ => pure ()
  | none => pure ()

/-- The body of the event loop. -/
def dispatch (rp : RealtimeProcessor) (i : ℕ) (e : DecodedEvent) :
    Proc (World V) SyncError Unit := do
  Proc.modify fun w => { w with dispatched := w.dispatched ++ [(i, e)] }
  rp.callHandler e

variable [DecidableEq V]

/-- What follows the decision `Normal`: fetch, sort, dispatch and flush. -/
def processHead (rp : RealtimeProcessor) (env : Env V) (i : ℕ) (number : UInt64) :
    Proc (World V) SyncError Unit := do
  Proc.forEach (rp.dispatch i) (sortByLogIndex (rp.fetchBlock i number))
  let _ ← (rp.writeBuffer.flushAll env).mapErr SyncError.database
  pure ()

/-- `detector.process_block(..).await?`, with the decision noted. -/
def decideHead (rp : RealtimeProcessor) (block : Block) :
    Proc (RealtimeState V) SyncError ReorgDecision := fun s =>
  match ReorgDetector.processBlock (rp.clients s.heads.length) s.detector rp.chainId block with
  | (.error e, detector) => (.err e, { s with detector })
  | (.ok decision, detector) =>
    (.ok decision, { s with detector, heads := s.heads ++ [(block, decision)] })

/-- What follows a decision for the i-th head. -/
def follow (rp : RealtimeProcessor) (env : Env V) (i : ℕ) (block : Block) :
    ReorgDecision → Proc (World V) SyncError Unit
  | .reorg chainId forkBlock newTip => do
    let _ ← rp.reorgHandler.handleReorg rp.writeBuffer env chainId forkBlock newTip
    pure ()
  | .normal => rp.processHead env i block.number

/-- The body of the loop over the stream of heads. -/
def handleHead (rp : RealtimeProcessor) (env : Env V) (blockResult : Except SyncError Block) :
    Proc (RealtimeState V) SyncError Unit := do
  let block ← Proc.ofExcept blockResult
  let s ← Proc.get
  let decision ← rp.decideHead block
  onWorld (rp.follow env s.heads.length block decision)

/-- `RealtimeProcessor::run` on what the stream of heads gives; a subscription that fails is a
stream of one error. -/
def run (rp : RealtimeProcessor) (env : Env V) (stream : List (Except SyncError Block)) :
    Proc (RealtimeState V) SyncError Unit :=
  Proc.forEach (rp.handleHead env) stream

/-- Some handler is registered for the event. -/
def hasHandler (rp : RealtimeProcessor) (e : DecodedEvent) : Bool :=
  (rp.registry e.handlerKey).isSome

/-- What handling the i-th head dispatches. -/
def handedAt (rp : RealtimeProcessor) (i : ℕ) (head : Block × ReorgDecision) :
    List (ℕ × DecodedEvent) :=
  match head.2 with
  | .normal => (sortByLogIndex (rp.fetchBlock i head.1.number)).map fun e => (i, e)
  | .reorg _ _ _ => []

omit [DecidableEq V] in
theorem callHandler_triple (rp : RealtimeProcessor) (e : DecodedEvent) {I : World V → Prop} :
    Proc.Triple I (rp.callHandler e) (fun _ => I) I := by
  unfold callHandler
  split
  · split
    · exact Proc.Triple.fail fun _ hw => hw
    · exact Proc.Triple.stop fun _ hw => hw
    · exact Proc.Triple.pure fun _ hw => hw
  · exact Proc.Triple.pure fun _ hw => hw

omit [DecidableEq V] in
theorem dispatchAll_triple (rp : RealtimeProcessor) (i : ℕ) (es : List DecodedEvent)
    (done : List (ℕ × DecodedEvent)) :
    Proc.Triple (fun w : World V => w.dispatched = done) (Proc.forEach (rp.dispatch i) es)
      (fun _ w => w.dispatched = done ++ es.map fun e => (i, e)) fun _ => True := by
  refine (Proc.Triple.forEach (I := fun pre w => w.dispatched = done ++ pre.map fun e => (i, e))
    fun pre e post _ => ?_).conseq (fun _ h => by simpa using h) (fun _ _ h => h) fun _ h => h
  refine Proc.Triple.bind (Q := fun _ w => w.dispatched =
    done ++ (pre ++ [e]).map fun e => (i, e)) ?_ fun _ => ?_
  · apply Proc.Triple.modify
    intro w hw
    simp [hw]
  · exact (rp.callHandler_triple e).conseq (fun _ h => h) (fun _ _ h => h) fun _ _ => trivial

theorem rollbackFromBlock_dispatched (env : Env V) (table : String) (blockNumber : UInt64)
    (pkCol : String) (columns : List String) (D : List (ℕ × DecodedEvent)) :
    Proc.Triple (fun w : World V => w.dispatched = D)
      (ReorgStore.rollbackFromBlock env table blockNumber pkCol columns)
      (fun _ w => w.dispatched = D) fun w => w.dispatched = D := by
  have hselect : Proc.Triple (fun w : World V => w.dispatched = D)
      (ReorgStore.selectShadow env table blockNumber columns) (fun _ w => w.dispatched = D)
      fun w => w.dispatched = D := by
    intro w hw
    unfold ReorgStore.selectShadow
    split
    · exact hw
    · split_ifs <;> exact hw
  have hreplay (r : ShadowRow V) : Proc.Triple (fun w : World V => w.dispatched = D)
      (ReorgStore.replayRow env table pkCol columns r) (fun _ w => w.dispatched = D)
      fun w => w.dispatched = D :=
    ReorgStore.replayRow_frame env table pkCol columns r (fun _ hw => hw) fun _ _ _ hw => hw
  have hdelete : Proc.Triple (fun w : World V => w.dispatched = D)
      (ReorgStore.deleteShadow env table fun s => decide
        (blockNumber.toInt64 ≤ s.blockNumber))
      (fun _ w => w.dispatched = D) fun w => w.dispatched = D :=
    (send_triple env fun _ hw => hw).bind fun _ => Proc.Triple.modify fun _ hw => hw
  exact ((send_triple env fun _ hw => hw).bind fun _ => hselect).mapErr.bind fun rows =>
    (Proc.Triple.forEach (I := fun _ (w : World V) => w.dispatched = D) fun _ r _ _ =>
      hreplay r).bind fun _ => hdelete.mapErr.bind fun _ => Proc.Triple.pure fun _ hw => hw

theorem follow_triple (rp : RealtimeProcessor) (env : Env V) (i : ℕ) (block : Block)
    (decision : ReorgDecision) (done : List (ℕ × DecodedEvent)) :
    Proc.Triple (fun w : World V => w.dispatched = done) (rp.follow env i block decision)
      (fun _ w => w.dispatched = done ++ rp.handedAt i (block, decision)) fun _ => True := by
  have hflush := flushAll_dispatched rp.writeBuffer env
  cases decision with
  | normal =>
    exact (rp.dispatchAll_triple i _ done).bind fun _ =>
      ((hflush _).conseq (fun _ h => h) (fun _ _ h => h) fun _ _ => trivial).bind fun _ =>
        Proc.Triple.pure fun _ hw => hw
  | reorg chainId forkBlock newTip =>
    have hroll : Proc.Triple (fun w : World V => w.dispatched = done)
        (Proc.foldEach (ReorgHandler.rollbackTable env forkBlock) 0 rp.reorgHandler.tables)
        (fun _ w => w.dispatched = done) fun w => w.dispatched = done :=
      Proc.Triple.foldEach (I := fun _ _ (w : World V) => w.dispatched = done) 0 fun _ t _ _ _ =>
        ((rollbackFromBlock_dispatched env t.1 forkBlock t.2.1 t.2.2 done).mapErr).bind
          fun _ => Proc.Triple.pure fun _ hw => hw
    have hreorg : Proc.Triple (fun w : World V => w.dispatched = done)
        (rp.reorgHandler.handleReorg rp.writeBuffer env chainId forkBlock newTip)
        (fun _ w => w.dispatched = done) fun w => w.dispatched = done := by
      refine (hflush done).bind fun _ => hroll.bind fun _ => ?_
      split_ifs
      · exact Proc.Triple.stop fun _ hw => hw
      · exact Proc.Triple.pure fun _ hw => hw
    refine (hreorg.conseq (fun _ h => h) (fun _ _ h => h) fun _ _ => trivial).bind fun _ =>
      Proc.Triple.pure fun w hw => ?_
    rw [hw]
    exact (List.append_nil _).symm

theorem handleHead_ok {rp : RealtimeProcessor} {env : Env V} {item : Except SyncError Block}
    {s s' : RealtimeState V} (h : rp.handleHead env item s = (.ok (), s')) :
    ∃ head, s'.heads = s.heads ++ [head] ∧
      s'.world.dispatched = s.world.dispatched ++ rp.handedAt s.heads.length head := by
  obtain ⟨block, s₁, hitem, h⟩ := Proc.bind_ok_iff.mp h
  obtain ⟨s₂, s₃, hget, h⟩ := Proc.bind_ok_iff.mp h
  obtain ⟨decision, s₄, hdecide, h⟩ := Proc.bind_ok_iff.mp h
  have hs₁ : s₁ = s := by
    unfold Proc.ofExcept at hitem
    split at hitem <;> cases hitem
    rfl
  cases hget
  subst hs₁
  unfold decideHead at hdecide
  split at hdecide
  · cases hdecide
  · cases hdecide
    obtain ⟨w, hfollow, rfl⟩ := onWorld_ok h
    exact ⟨(block, decision), rfl, (rp.follow_triple env _ block decision _).of_ok rfl hfollow⟩

/-- What the heads of a list dispatch, the first one with the given index. -/
def handedFrom (rp : RealtimeProcessor) : ℕ → List (Block × ReorgDecision) →
    List (ℕ × DecodedEvent)
  | _, [] => []
  | i, head :: heads => rp.handedAt i head ++ rp.handedFrom (i + 1) heads

/-- A run that goes on has decided on its heads one by one and dispatched what they carry. -/
theorem run_ok {rp : RealtimeProcessor} {env : Env V} {stream : List (Except SyncError Block)}
    {s s' : RealtimeState V} (h : rp.run env stream s = (.ok (), s')) :
    ∃ heads, s'.heads = s.heads ++ heads ∧
      s'.world.dispatched = s.world.dispatched ++ rp.handedFrom s.heads.length heads := by
  induction stream generalizing s with
  | nil =>
    cases h
    exact ⟨[], by simp, by simp [handedFrom]⟩
  | cons item stream ih =>
    obtain ⟨s₁, hhead, hrest⟩ := Proc.forEach_cons_ok_iff.mp h
    obtain ⟨head, hheads, hdone⟩ := handleHead_ok hhead
    obtain ⟨heads, hheads', hdone'⟩ := ih hrest
    refine ⟨head :: heads, by rw [hheads', hheads, List.append_assoc]; rfl, ?_⟩
    rw [hdone', hdone, hheads, List.length_append, List.append_assoc]
    rfl

theorem mem_handedFrom {rp : RealtimeProcessor} {i j : ℕ} {heads : List (Block × ReorgDecision)}
    {e : DecodedEvent} : (j, e) ∈ rp.handedFrom i heads ↔
      ∃ k block, j = i + k ∧ heads[k]? = some (block, .normal) ∧ e ∈ rp.fetchBlock j block.number := by
  induction heads generalizing i with
  | nil => simp [handedFrom]
  | cons head heads ih =>
    have hhere : (j, e) ∈ rp.handedAt i head ↔
        j = i ∧ ∃ block, head = (block, .normal) ∧ e ∈ rp.fetchBlock j block.number := by
      obtain ⟨block, decision⟩ := head
      have hsort (es : List DecodedEvent) : e ∈ sortByLogIndex es ↔ e ∈ es :=
        (List.perm_insertionSort _ es).mem_iff
      cases decision with
      | normal =>
        simp only [handedAt, List.mem_map, Prod.mk.injEq]
        constructor
        · rintro ⟨e', he', rfl, rfl⟩
          exact ⟨rfl, block, ⟨rfl, trivial⟩, (hsort _).mp he'⟩
        · rintro ⟨rfl, block', ⟨rfl, -⟩, he⟩
          exact ⟨e, (hsort _).mpr he, rfl, rfl⟩
      | reorg chainId f n => simp [handedAt]
    change (j, e) ∈ rp.handedAt i head ++ rp.handedFrom (i + 1) heads ↔ _
    rw [List.mem_append, hhere, ih]
    constructor
    · rintro (⟨rfl, block, rfl, he⟩ | ⟨k, block, hj, hk, he⟩)
      · exact ⟨0, block, rfl, rfl, he⟩
      · exact ⟨k + 1, block, by omega, hk, he⟩
    · rintro ⟨k, block, hj, hk, he⟩
      cases k with
      | zero => exact .inl ⟨by omega, block, Option.some.inj hk, he⟩
      | succ k => exact .inr ⟨k, block, by omega, hk, he⟩

section Reindex

/-- The event belongs to the new blocks of a reorg and has a handler.  `canonical` gives the events
of a block of the chain that is canonical while the i-th head is handled. -/
def Replaced (rp : RealtimeProcessor) (canonical : ℕ → UInt64 → List DecodedEvent) (i : ℕ)
    (forkBlock newTip : UInt64) (e : DecodedEvent) : Prop :=
  rp.hasHandler e = true ∧ ∃ k, forkBlock ≤ k ∧ k ≤ newTip ∧ e ∈ canonical i k

/-- After a reorg the events of its new blocks are handed to handlers before, or together with, the
events of any later head. -/
def Reindexed (rp : RealtimeProcessor) (canonical : ℕ → UInt64 → List DecodedEvent)
    (s : RealtimeState V) : Prop :=
  ∀ i block chainId forkBlock newTip,
    s.heads[i]? = some (block, .reorg chainId forkBlock newTip) →
    ∀ e, rp.Replaced canonical i forkBlock newTip e →
    ∀ j, i < j → (∃ e', (j, e') ∈ s.world.dispatched ∧ rp.hasHandler e' = true) →
      ∃ t, i ≤ t ∧ t ≤ j ∧ (t, e) ∈ s.world.dispatched

/-- The t-th head is accepted as normal and the workers answer it with the event. -/
def Carries (rp : RealtimeProcessor) (heads : List (Block × ReorgDecision)) (t : ℕ)
    (e : DecodedEvent) : Prop :=
  ∃ block, heads[t]? = some (block, .normal) ∧ e ∈ rp.fetchBlock t block.number

/-- Every event of the new blocks of a reorg comes again with a later head, at the latest with the
first one that carries an event with a handler. -/
def AnnouncedAgain (rp : RealtimeProcessor) (canonical : ℕ → UInt64 → List DecodedEvent)
    (heads : List (Block × ReorgDecision)) : Prop :=
  ∀ i block chainId forkBlock newTip,
    heads[i]? = some (block, .reorg chainId forkBlock newTip) →
    ∀ e, rp.Replaced canonical i forkBlock newTip e →
    ∀ j, i < j → (∃ e', rp.Carries heads j e' ∧ rp.hasHandler e' = true) →
      ∃ t, i < t ∧ t ≤ j ∧ rp.Carries heads t e

/-- A run re-indexes after its reorgs if and only if the stream announces the new blocks again:
the head that shows a reorg hands out nothing itself. -/
theorem run_reindexes_iff {rp : RealtimeProcessor} {env : Env V}
    (canonical : ℕ → UInt64 → List DecodedEvent) {stream : List (Except SyncError Block)}
    {s₀ s : RealtimeState V} (hheads : s₀.heads = []) (hdispatched : s₀.world.dispatched = [])
    (h : rp.run env stream s₀ = (.ok (), s)) :
    rp.Reindexed canonical s ↔ rp.AnnouncedAgain canonical s.heads := by
  obtain ⟨heads, hs, hdone⟩ := run_ok h
  rw [hheads, List.nil_append] at hs
  rw [hheads, hdispatched, List.nil_append] at hdone
  have hmem (t : ℕ) (e : DecodedEvent) :
      (t, e) ∈ s.world.dispatched ↔ rp.Carries s.heads t e := by
    rw [hdone, hs, mem_handedFrom]
    constructor
    · rintro ⟨k, block, ht, hk, he⟩
      rw [List.length_nil, Nat.zero_add] at ht
      subst ht
      exact ⟨block, hk, he⟩
    · rintro ⟨block, hk, he⟩
      exact ⟨t, block, by simp, hk, he⟩
  unfold Reindexed AnnouncedAgain
  simp only [hmem]
  constructor
  · intro hre i block chainId f n hi e he j hij hj
    obtain ⟨t, hit, htj, hcarries⟩ := hre i block chainId f n hi e he j hij hj
    refine ⟨t, lt_of_le_of_ne hit ?_, htj, hcarries⟩
    rintro rfl
    obtain ⟨block', hblock', -⟩ := hcarries
    rw [hi] at hblock'
    cases hblock'
  · intro hagain i block chainId f n hi e he j hij hj
    obtain ⟨t, hit, htj, hcarries⟩ := hagain i block chainId f n hi e he j hij hj
    exact ⟨t, le_of_lt hit, htj, hcarries⟩

/-- A hash of one repeated byte. -/
def hashOf (b : UInt8) : Hash32 := ⟨List.replicate 32 b, Hash32.length_repeated b⟩

/-- A block of chain 1. -/
def blockAt (number : UInt64) (hash parentHash : UInt8) : Block where
  chainId := 1
  number := number
  hash := hashOf hash
  parentHash := hashOf parentHash
  timestamp := 0
  gasLimit := 0
  gasUsed := 0
  baseFeePerGas := none
  miner := Address.zero

/-- A processor of chain 1 with one worker that answers from the chain of the moment, a node with
the given hashes and a handler for every event. -/
def chainProcessor (canonical : ℕ → UInt64 → List DecodedEvent) (hashes : UInt64 → UInt8) :
    RealtimeProcessor where
  workers := [fun i range => .ok (canonical i range.fromBlock)]
  clients := fun _ _ => some fun n => .ok (blockAt n (hashes n) 0)
  reorgHandler := ⟨[]⟩
  registry := fun _ => some fun _ => .ok (.ok ())
  writeBuffer := WriteBuffer.new ⟨[]⟩
  chainId := 1

/-- A processor that has just started. -/
def freshState : RealtimeState String := ⟨World.fresh String, fun _ => none, []⟩

/-- Blocks 1 and 2, then block 3 of a chain that has another block 2, then block 4. -/
def forkedStream : List (Except SyncError Block) :=
  [.ok (blockAt 1 1 0), .ok (blockAt 2 2 1), .ok (blockAt 3 13 12), .ok (blockAt 4 14 13)]

/-- The new block 2 carries an event, and so does block 4. -/
def forkedEvents (i : ℕ) (number : UInt64) : List DecodedEvent :=
  if 2 ≤ i ∧ number = 2 then [BackfillCoordinator.transferAt "A" 2 0]
  else if number = 4 then [BackfillCoordinator.transferAt "A" 4 0]
  else []

/-- The node after the fork. -/
def forkedHashes (number : UInt64) : UInt8 := if number = 1 then 1 else 12

/-- The stream announces blocks 2 and 3 of the new chain again before it goes on to block 4. -/
theorem run_reindexes_iff_announced :
    let rp := chainProcessor forkedEvents forkedHashes
    let stream := [.ok (blockAt 1 1 0), .ok (blockAt 2 2 1), .ok (blockAt 3 13 12),
      .ok (blockAt 2 12 1), .ok (blockAt 3 13 12), .ok (blockAt 4 14 13)]
    rp.Reindexed forkedEvents (rp.run (plainEnv ⟨[]⟩) stream freshState).2 := by
  intro rp stream
  have hrun : (rp.run (plainEnv ⟨[]⟩) stream freshState).1 = .ok () := by decide +kernel
  refine (run_reindexes_iff forkedEvents rfl rfl (Proc.eq_ok_of_fst hrun)).mpr ?_
  have hheads : (rp.run (plainEnv ⟨[]⟩) stream freshState).2.heads =
      [(blockAt 1 1 0, .normal), (blockAt 2 2 1, .normal), (blockAt 3 13 12, .reorg 1 2 3),
        (blockAt 2 12 1, .normal), (blockAt 3 13 12, .normal), (blockAt 4 14 13, .normal)] := by
    decide +kernel
  rw [hheads]
  intro i block chainId f n hi e ⟨_, k, hk, hk', he⟩ j hij _
  rcases i with _ | _ | _ | _ | _ | _ | i <;> simp at hi
  obtain ⟨-, -, rfl, rfl⟩ := hi
  refine ⟨3, by omega, by omega, blockAt 2 12 1, rfl, ?_⟩
  change e ∈ forkedEvents 2 k at he
  unfold forkedEvents at he
  by_cases hk2 : k = 2
  · rw [if_pos ⟨le_rfl, hk2⟩] at he
    exact he
  · have hk4 : ¬k = 4 := by
      rintro rfl
      exact absurd hk' (by decide)
    simp [hk2, hk4] at he

/-- Block 3 of the new chain shows the reorg; the event of the new block 2 is never handed out,
and that of block 4 is. -/
theorem run_not_reindexes :
    let rp := chainProcessor forkedEvents forkedHashes
    let r := rp.run (plainEnv ⟨[]⟩) forkedStream freshState
    r.1 = .ok () ∧
      r.2.heads.map Prod.snd = [.normal, .normal, .reorg 1 2 3, .normal] ∧
      (r.2.world.dispatched.map fun d => (d.1, d.2.rawLog.blockNumber)) = [(3, 4)] ∧
      ¬rp.Reindexed forkedEvents r.2 := by
  intro rp r
  have hnumbers : (r.2.world.dispatched.map fun d => (d.1, d.2.rawLog.blockNumber)) = [(3, 4)] := by
    decide +kernel
  refine ⟨by decide +kernel, by decide +kernel, hnumbers, fun h => ?_⟩
  have hhead : r.2.heads[2]? = some (blockAt 3 13 12, .reorg 1 2 3) := by decide +kernel
  have hmem : ((3 : ℕ), (4 : UInt64)) ∈
      r.2.world.dispatched.map fun d => (d.1, d.2.rawLog.blockNumber) := by
    rw [hnumbers]
    exact List.mem_singleton_self _
  obtain ⟨⟨j, e'⟩, he', heq⟩ := List.mem_map.mp hmem
  have hj : j = 3 := congrArg Prod.fst heq
  subst hj
  obtain ⟨t, -, -, ht⟩ := h 2 _ 1 2 3 hhead (BackfillCoordinator.transferAt "A" 2 0)
    ⟨rfl, 2, by decide, by decide, List.mem_singleton_self _⟩ 3 (by decide) ⟨e', he', rfl⟩
  have hpair := List.mem_map_of_mem (f := fun d : ℕ × DecodedEvent =>
    (d.1, d.2.rawLog.blockNumber)) ht
  rw [hnumbers, List.mem_singleton] at hpair
  cases hpair

end Reindex

end RealtimeProcessor

end ForgeIndex
