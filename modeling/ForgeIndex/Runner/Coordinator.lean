import ForgeIndex.Backfill.Delivery
import ForgeIndex.Runner.Builder
import ForgeIndex.Runner.ChunkSizes
import ForgeIndex.Runner.Wiring

/-!
# The coordinator of a run

The part of `ForgeIndexRunner::run` that hands the wiring to `BackfillCoordinator::new`.  With a
node that answers `eth_getLogs` from the logs of the chain, every worker is exact: a range brings
the events that its filter and its decoder find there.
-/

namespace ForgeIndex

variable {V C : Type}

namespace BackfillWorker

/-- The log comes from an address that the worker asks for, with a first topic of its events. -/
def asks (w : BackfillWorker C) (log : Log) : Bool :=
  LogFilter.topicsMatch (if w.selectors.isEmpty then [] else [some w.selectors]) log.topics &&
    (w.addresses.isEmpty || decide (log.address ∈ w.addresses))

/-- The events that the worker finds among the logs of a chain. -/
def eventsAmong (w : BackfillWorker C) (logs : List Log) : List DecodedEvent :=
  (logs.filter w.asks).filterMap fun log => (w.decoder.decode log w.contract.name).toOption

theorem selects_filter (w : BackfillWorker C) (range : BlockRange) (log : Log) :
    (w.filter range).selects log = (decide (range.Covers log.blockNumber) && w.asks log) := by
  have h := w.selects_filter_iff range log
  rw [Bool.eq_iff_iff, h]
  unfold asks Watches
  simp [filter, and_assoc]

theorem decodeLogs_eq {w : BackfillWorker C} {logs : List Log} {events : List DecodedEvent}
    (h : w.decodeLogs logs = .ok events) :
    events = logs.filterMap fun log => (w.decoder.decode log w.contract.name).toOption := by
  induction logs generalizing events with
  | nil =>
    cases h
    rfl
  | cons log logs ih =>
    rw [decodeLogs] at h
    cases hdecode : w.decoder.decode log w.contract.name with
    | ok first =>
      rw [hdecode] at h
      obtain ⟨rest, hrest, heq⟩ := bind_eq_ok.mp h
      cases heq
      rw [ih hrest]
      simp [hdecode, Except.toOption]
    | error e =>
      rw [hdecode] at h
      have hrest : w.decodeLogs logs = .ok events := by
        split at h
        · rename_i heq
          cases heq
        · exact h
        · cases h
      rw [ih hrest]
      simp [hdecode, Except.toOption]

theorem eventsAmong_filter (w : BackfillWorker C) (range : BlockRange) (logs : List Log) :
    ((logs.filter (w.filter range).selects).filterMap fun log =>
      (w.decoder.decode log w.contract.name).toOption) =
      (w.eventsAmong logs).filter fun e => range.Covers e.rawLog.blockNumber := by
  unfold eventsAmong
  rw [List.filter_filterMap, List.filter_congr fun log _ => w.selects_filter range log,
    ← List.filter_filter, List.filterMap_filter]
  apply List.filterMap_congr
  intro log _
  cases hdecode : w.decoder.decode log w.contract.name with
  | error e => simp [Except.toOption]
  | ok event =>
    have hlog := rawLog_of_decode hdecode
    subst hlog
    simp [Except.toOption, Option.filter]

/-- A worker that is answered from the logs of the chain returns the events of the range. -/
theorem fetchRange_perm {σ : Type} {getLogs : C → LogFilter → Proc σ String (List Log)}
    {w : BackfillWorker C} {range : BlockRange} {chainLogs : List Log} {s t : σ}
    (hnode : ∀ got s', getLogs w.client (w.filter range) s = (.ok got, s') →
      got.Perm (chainLogs.filter (w.filter range).selects))
    {events : List DecodedEvent} (h : w.fetchRange getLogs range s = (.ok events, t)) :
    events.Perm ((w.eventsAmong chainLogs).filter fun e => range.Covers e.rawLog.blockNumber) := by
  obtain ⟨got, s', hget, hrest⟩ := Proc.bind_ok_iff.mp h
  rw [Proc.mapErr_ok_iff] at hget
  cases hdecode : w.decodeLogs got with
  | error e =>
    rw [hdecode] at hrest
    cases e <;> cases hrest
  | ok decoded =>
    rw [hdecode] at hrest
    cases hrest
    refine (List.perm_insertionSort _ decoded).trans ?_
    rw [decodeLogs_eq hdecode, ← eventsAmong_filter]
    exact (hnode _ _ hget).filterMap _

end BackfillWorker

namespace BackfillCoordinator

open WriteBuffer (Holds)

/-- A backfill of one chain: the events due from the checkpoints of `w₀` were handed out, each
once, and those of each range in the order of the chain. -/
def HandsOut (co : BackfillCoordinator V) (env : Env V) (events : UInt64 → String → List DecodedEvent)
    (w₀ : World V) (chainId currentBlock : UInt64) (handed : List (ℕ × DecodedEvent)) : Prop :=
  (∃ n, (handed.map Prod.snd).Perm (dueEvents env chainId currentBlock (events chainId) w₀ n
    (co.chainContracts chainId))) ∧
  ∀ i, ((handed.filter fun d => d.1 = i).map Prod.snd).Pairwise DecodedEvent.le

theorem dueEvents_congr {env : Env V} {chainId currentBlock : UInt64}
    {events : String → List DecodedEvent} {w w' : World V}
    (h : ∀ name, w'.checkpoints (chainId, name) = w.checkpoints (chainId, name)) (n : ℕ)
    (cs : List ContractConfig) :
    dueEvents env chainId currentBlock events w' n cs =
      dueEvents env chainId currentBlock events w n cs := by
  induction cs generalizing n with
  | nil => rfl
  | cons c cs ih =>
    have hcheckpoint : checkpointAt env w' n chainId c.name = checkpointAt env w n chainId c.name := by
      unfold checkpointAt
      rw [h]
    rw [dueEvents, dueEvents, ih, hcheckpoint]

variable [DecidableEq V] {co : BackfillCoordinator V} {env : Env V} {chainId currentBlock : UInt64}

omit [DecidableEq V] in
theorem walk_handsOut {events : UInt64 → String → List DecodedEvent}
    (hexact : co.Exact chainId (events chainId)) {w : World V} {plans : List BackfillPlan}
    (hplans : co.plansFrom env chainId currentBlock w w.clock (co.chainContracts chainId) = .ok plans)
    (hok : ∀ i < maxRanges plans, (co.fetchAll chainId plans i).isOk = true) {w₀ : World V}
    (hw₀ : ∀ name, w.checkpoints (chainId, name) = w₀.checkpoints (chainId, name)) :
    co.HandsOut env events w₀ chainId currentBlock (co.walk chainId plans) := by
  constructor
  · refine ⟨w.clock, ?_⟩
    rw [← dueEvents_congr hw₀, map_snd_walk]
    have hrounds := List.Perm.flatMap_left (List.range (maxRanges plans))
      (f := co.batch chainId plans) (g := fun i => plans.flatMap (rangeEvents (events chainId) i))
      fun i hi => batch_perm hexact hplans (hok i (List.mem_range.mp hi))
    refine hrounds.trans ((flatMap_flatMap_comm _ _ _).trans ?_)
    exact plans_perm hplans fun p hp => length_le_maxRanges hp
  · intro i
    unfold walk
    rw [filter_rounds]
    split_ifs
    · exact List.pairwise_insertionSort _ _
    · exact List.Pairwise.nil

/-- The checkpoints of the other chains are those of `w₀`. -/
def OthersAs (chainId : UInt64) (w₀ w : World V) : Prop :=
  ∀ other ≠ chainId, ∀ name, w.checkpoints (other, name) = w₀.checkpoints (other, name)

/-- A round writes checkpoints of its own chain only, and leaves no row in the buffers. -/
theorem processRange_frame (w₀ : World V) (plans : List BackfillPlan) (i : ℕ) :
    Proc.Triple (OthersAs chainId w₀) (co.processRange env chainId plans i)
      (fun _ w => OthersAs chainId w₀ w ∧ Holds w fun _ => []) (OthersAs chainId w₀) := by
  have hsave (p : BackfillPlan) : Proc.Triple
      (fun w => OthersAs chainId w₀ w ∧ Holds w fun _ => []) (saveCheckpoint env chainId i p)
      (fun _ w => OthersAs chainId w₀ w ∧ Holds w fun _ => [])
      fun w => OthersAs chainId w₀ w ∧ Holds w fun _ => [] := by
    refine saveCheckpoint_triple env chainId i p (fun _ hw => hw) fun w range _ hw => ⟨?_, hw.2⟩
    intro other hne name
    have hkey : (other, name) ≠ (chainId, p.contractName) := fun h => hne (Prod.ext_iff.mp h).1
    dsimp only
    rw [Function.update_of_ne hkey]
    exact hw.1 other hne name
  refine Proc.Triple.bind (Proc.Triple.ofExcept (Q := fun _ => OthersAs chainId w₀)
    (fun _ _ _ hw => hw) fun _ hw => hw) fun events => ?_
  refine ((leaves_dispatchAll (g := World.checkpoints) (fun _ _ _ _ => rfl) co i _).triple
    fun cp => ∀ other ≠ chainId, ∀ name, cp (other, name) = w₀.checkpoints (other, name)).bind
    fun _ => ?_
  refine Proc.Triple.bind ((WriteBuffer.flushAll_frame co.writeBuffer env
    (I := OthersAs chainId w₀) fun _ _ _ _ _ _ hw => hw).mapErr) fun _ => ?_
  have hsaves : Proc.Triple (fun w => OthersAs chainId w₀ w ∧ Holds w fun _ => [])
      (Proc.forEach (saveCheckpoint env chainId i) plans)
      (fun _ w => OthersAs chainId w₀ w ∧ Holds w fun _ => []) (OthersAs chainId w₀) :=
    Proc.Triple.forEach (I := fun _ w => OthersAs chainId w₀ w ∧ Holds w fun _ => [])
      fun _ p _ _ => (hsave p).conseq (fun _ h => h) (fun _ _ h => h) fun _ h => h.1
  exact hsaves.bind fun _ => Proc.Triple.modify fun _ hw => hw

/-- A backfill leaves the checkpoints of the other chains alone, and one that returns leaves no
row in buffers that were empty before it. -/
theorem runChain_frame (co : BackfillCoordinator V) (env : Env V) (chainId currentBlock : UInt64)
    (w₀ : World V) :
    Proc.Triple (fun w => OthersAs chainId w₀ w ∧ Holds w fun _ => [])
      (co.runChain env chainId currentBlock)
      (fun _ w => OthersAs chainId w₀ w ∧ Holds w fun _ => []) (OthersAs chainId w₀) := by
  unfold runChain
  split_ifs
  · exact Proc.Triple.pure fun _ hw => hw
  · have hplan : Proc.Triple (fun w => OthersAs chainId w₀ w ∧ Holds w fun _ => [])
        (co.planAll env chainId currentBlock)
        (fun _ w => OthersAs chainId w₀ w ∧ Holds w fun _ => []) (OthersAs chainId w₀) := by
      intro w hw
      refine (co.planAll_triple env chainId currentBlock w).conseq (fun _ h => h) ?_ ?_ w rfl
      · intro _ w' ⟨_, m, hw'⟩
        rw [hw']
        exact hw
      · intro w' ⟨m, hw'⟩
        rw [hw']
        exact hw.1
    refine hplan.bind fun plans => ?_
    have hinit : Proc.Triple (fun w => OthersAs chainId w₀ w ∧ Holds w fun _ => [])
        (initProgress chainId plans : Proc (World V) SyncError Unit)
        (fun _ w => OthersAs chainId w₀ w ∧ Holds w fun _ => []) (OthersAs chainId w₀) := by
      unfold initProgress
      dsimp only
      split_ifs
      · exact Proc.Triple.stop fun _ hw => hw.1
      · exact Proc.Triple.modify fun _ hw => hw
    refine hinit.bind fun _ => Proc.Triple.forEach
      (I := fun _ w => OthersAs chainId w₀ w ∧ Holds w fun _ => []) fun _ i _ _ => ?_
    exact (processRange_frame w₀ plans i).conseq (fun _ h => h.1) (fun _ _ h => h) fun _ h => h

theorem runChain_handsOut {events : UInt64 → String → List DecodedEvent}
    (hexact : co.Exact chainId (events chainId)) {w₀ w w' : World V}
    (hw₀ : ∀ name, w.checkpoints (chainId, name) = w₀.checkpoints (chainId, name))
    (h : co.runChain env chainId currentBlock w = (.ok (), w')) :
    ∃ handed, co.HandsOut env events w₀ chainId currentBlock handed ∧
      w'.dispatched = w.dispatched ++ handed := by
  obtain ⟨plans, hplans, hok, hdone⟩ :=
    (co.runChain_dispatched env chainId currentBlock w).of_ok rfl h
  exact ⟨_, walk_handsOut hexact hplans hok hw₀, hdone⟩

end BackfillCoordinator

/-- What the clients of a run are answered, and how its workers use them. -/
structure Node (C : Type) where
  getLogs : C → LogFilter → Except String (List Log)
  blockNumber : C → Except String UInt64
  /-- `BackfillWorker::fetch_range`; a decoder that panics gives no value. -/
  fetch : BackfillWorker C → FetchRange
  fetch_ok : ∀ w range events, fetch w range = .ok events →
    ∃ t, w.fetchRange (fun c f => Proc.ofExcept (getLogs c f)) range () = (.ok events, t)

/-- The node answers from these logs, in any order, or not at all. -/
def Node.Serves (node : Node C) (chainLogs : C → List Log) : Prop :=
  ∀ c filter got, node.getLogs c filter = .ok got →
    got.Perm ((chainLogs c).filter filter.selects)

theorem Node.fetch_perm {node : Node C} {chainLogs : C → List Log} (h : node.Serves chainLogs)
    {w : BackfillWorker C} {range : BlockRange} {events : List DecodedEvent}
    (hfetch : node.fetch w range = .ok events) :
    events.Perm ((w.eventsAmong (chainLogs w.client)).filter fun e =>
      range.Covers e.rawLog.blockNumber) := by
  obtain ⟨t, ht⟩ := node.fetch_ok w range events hfetch
  refine BackfillWorker.fetchRange_perm (fun got s' hget => h _ _ _ ?_) ht
  unfold Proc.ofExcept at hget
  split at hget
  · rename_i a ha
    cases hget
    exact ha
  · cases hget

namespace ForgeIndexRunner

/-- `BackfillCoordinator::new` over the wiring. -/
def coordinator (r : ForgeIndexRunner V) (node : Node C) (wiring : Wiring C) :
    BackfillCoordinator V where
  workers key := (wiring.workers key).map node.fetch
  registry := r.registry.handlers
  dbHandlers := r.dbHandlers
  writeBuffer := WriteBuffer.new r.schema
  chainContracts chainId := (wiring.chainContracts chainId).map Config.Contract.toContractConfig
  chainChunkSizes := r.config.chainChunkSizes

/-- The events of a contract name on a chain: what the worker of this name finds. -/
def eventsOf (chainLogs : C → List Log) (wiring : Wiring C) (chainId : UInt64) (name : String) :
    List DecodedEvent :=
  ((wiring.workers (chainId, name)).map fun w => w.eventsAmong (chainLogs w.client)).getD []

variable {parse : String → Except AbiError ParsedAbi}

theorem Filled.exists_worker {clients : List (UInt64 × C)} {es : List (UInt64 × Config.Contract)}
    {st : Wiring C} (h : Filled parse clients es st) {chainId : UInt64} {c : Config.Contract}
    (hc : c ∈ st.chainContracts chainId) : ∃ w, st.workers (chainId, c.name) = some w := by
  rw [h.chainContracts, Filling.buckets_apply] at hc
  obtain ⟨e, he, rfl⟩ := List.mem_map.mp hc
  obtain ⟨hmem, hchain⟩ := List.mem_filter.mp he
  obtain ⟨e', htable⟩ := Filling.exists_of_mem slot hmem
  have hslot : slot e = (chainId, e.2.name) := by
    unfold slot
    rw [of_decide_eq_true hchain]
  rw [hslot] at htable
  exact h.found _ e' htable

theorem coordinator_exact (r : ForgeIndexRunner V) {node : Node C} {chainLogs : C → List Log}
    (hnode : node.Serves chainLogs) {buildFromConfig : ChainConfig → Except String C}
    {wiring : Wiring C} (hwire : wire buildFromConfig parse r.config = .ok wiring)
    (chainId : UInt64) :
    (r.coordinator node wiring).Exact chainId (eventsOf chainLogs wiring chainId) := by
  intro contract hcontract
  obtain ⟨clients, -, hfilled⟩ := filled_of_wire hwire
  obtain ⟨c, hc, rfl⟩ := List.mem_map.mp hcontract
  obtain ⟨w, hw⟩ := hfilled.exists_worker hc
  refine ⟨node.fetch w, by simp [coordinator, hw], fun range events hevents => ?_⟩
  have hevents' : eventsOf chainLogs wiring chainId c.name = w.eventsAmong (chainLogs w.client) := by
    simp [eventsOf, hw]
  rw [hevents']
  exact Node.fetch_perm hnode hevents

end ForgeIndexRunner

end ForgeIndex
