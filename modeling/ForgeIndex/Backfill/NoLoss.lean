import ForgeIndex.Backfill.Inserts
import ForgeIndex.Db.Flush

/-!
# Rows behind the checkpoint

A run that is stopped anywhere, and started again any number of times, keeps this account: below
the stored checkpoint of a contract every event has had its rows sent.  It needs the buffer to
have room for a whole range, since a full buffer gives the handler an error that is only logged.
-/

namespace ForgeIndex

open WriteBuffer (Holds)

variable {V : Type}

/-- An executed `INSERT` carried the row. -/
def Sent (w : World V) (table : String) (row : Row) : Prop :=
  ∃ columns rows, row ∈ rows ∧ WriteBuffer.insertStmt table columns rows ∈ w.sent

def RowsSent (rows : DecodedEvent → List (String × Row)) (w : World V) (e : DecodedEvent) : Prop :=
  ∀ x ∈ rows e, Sent w x.1 x.2

theorem RowsSent.mono {rows : DecodedEvent → List (String × Row)} {w w' : World V}
    {e : DecodedEvent} (h : RowsSent rows w e) (hsent : ∀ s ∈ w.sent, s ∈ w'.sent) :
    RowsSent rows w' e := by
  intro x hx
  obtain ⟨columns, rs, hr, hs⟩ := h x hx
  exact ⟨columns, rs, hr, hsent _ hs⟩

/-- The process starts again: what it held in memory is gone. -/
def World.restart (w : World V) : World V :=
  { w with buffers := IndexMap.empty, totalFlushed := 0, progress := fun _ => none }

namespace BackfillCoordinator

/-- The same coordinator with other chunk sizes. -/
def withChunkSizes (co : BackfillCoordinator V) (sizes : UInt64 → Option UInt64) :
    BackfillCoordinator V := { co with chainChunkSizes := sizes }

/-- The batch of every range of the run that starts in `w` fits into the buffer. -/
def Fits (env : Env V) (chainId : UInt64) (events : String → List DecodedEvent)
    (rows : DecodedEvent → List (String × Row)) (co : BackfillCoordinator V)
    (currentBlock : UInt64) (w : World V) : Prop :=
  ∀ plans, co.plansFrom env chainId currentBlock w w.clock (co.chainContracts chainId) = .ok plans →
    ∀ i table, (rowsTo table ((plans.flatMap (rangeEvents events i)).flatMap rows)).length ≤
      co.writeBuffer.maxSize

/-- Inserting handlers over exact workers. -/
structure InsertHandlers (co : BackfillCoordinator V) (env : Env V) (chainId : UInt64)
    (events : String → List DecodedEvent) (rows : DecodedEvent → List (String × Row)) : Prop where
  valid : validateSchema env.schema = []
  buffer : co.writeBuffer = WriteBuffer.new env.schema
  exact : co.Exact chainId events
  inserts : co.InsertsRows rows
  marked : ∀ e, ∀ x ∈ rows e, x.2.operation = none

/-- No run looks at the chunk sizes to know what its handlers insert. -/
theorem InsertHandlers.withChunkSizes {co : BackfillCoordinator V} {env : Env V} {chainId : UInt64}
    {events : String → List DecodedEvent} {rows : DecodedEvent → List (String × Row)}
    (h : co.InsertHandlers env chainId events rows) (sizes : UInt64 → Option UInt64) :
    (co.withChunkSizes sizes).InsertHandlers env chainId events rows :=
  ⟨h.valid, h.buffer, h.exact, h.inserts, h.marked⟩

/-- A backfill of inserting handlers: events labelled with their contract, one entry for each
contract name, and rows for tables that exist. -/
structure InsertBackfill (co : BackfillCoordinator V) (env : Env V) (chainId : UInt64)
    (events : String → List DecodedEvent) (rows : DecodedEvent → List (String × Row)) : Prop
    extends co.InsertHandlers env chainId events rows where
  labelled : ∀ name, ∀ e ∈ events name, e.contractName = name
  distinct : ((co.chainContracts chainId).map ContractConfig.name).Nodup
  known : ∀ name, ∀ e ∈ events name, ∀ x ∈ rows e, (env.schema.find x.1).isSome

/-- What holds of the database and of the events handed out so far. -/
structure Accounted (co : BackfillCoordinator V) (chainId : UInt64)
    (events : String → List DecodedEvent) (rows : DecodedEvent → List (String × Row))
    (w : World V) : Prop where
  behind : ∀ c ∈ co.chainContracts chainId, ∀ k, w.checkpoints (chainId, c.name) = some k →
    c.startBlock ≤ k.toUInt64 ∧ ∀ e ∈ events c.name, c.startBlock ≤ e.rawLog.blockNumber →
      e.rawLog.blockNumber < k.toUInt64 → RowsSent rows w e
  handed : ∀ d ∈ w.dispatched, ∃ c ∈ co.chainContracts chainId, d.2 ∈ events c.name ∧
    c.startBlock ≤ d.2.rawLog.blockNumber

section Account

variable {co : BackfillCoordinator V} {env : Env V} {chainId currentBlock : UInt64}
  {events : String → List DecodedEvent} {rows : DecodedEvent → List (String × Row)}

theorem Accounted.of_eq {w w' : World V} (h : co.Accounted chainId events rows w)
    (hcp : w'.checkpoints = w.checkpoints) (hdis : w'.dispatched = w.dispatched)
    (hsent : ∀ s ∈ w.sent, s ∈ w'.sent) : co.Accounted chainId events rows w' where
  behind c hc k hk := by
    rw [hcp] at hk
    obtain ⟨hle, hall⟩ := h.behind c hc k hk
    exact ⟨hle, fun e he hlo hhi => (hall e he hlo hhi).mono hsent⟩
  handed d hd := by
    rw [hdis] at hd
    exact h.handed d hd

/-- A plan starts where the rows of its contract have been sent up to. -/
def Begun (co : BackfillCoordinator V) (chainId currentBlock : UInt64)
    (events : String → List DecodedEvent) (rows : DecodedEvent → List (String × Row))
    (w : World V) (p : BackfillPlan) : Prop :=
  ∃ c ∈ co.chainContracts chainId, c.name = p.contractName ∧ ∃ start : UInt64,
    Tiles start.toNat currentBlock.toNat p.ranges ∧ c.startBlock ≤ start ∧
      ∀ e ∈ events c.name, c.startBlock ≤ e.rawLog.blockNumber → e.rawLog.blockNumber < start →
        RowsSent rows w e

theorem begun_of_plansFrom {w : World V} {n : ℕ} {plans : List BackfillPlan}
    (hw : co.Accounted chainId events rows w)
    (hplans : co.plansFrom env chainId currentBlock w n (co.chainContracts chainId) = .ok plans)
    {p : BackfillPlan} (hp : p ∈ plans) : co.Begun chainId currentBlock events rows w p := by
  obtain ⟨c, hc, m, hm⟩ := exists_planAt_of_mem hplans hp
  obtain ⟨hname, htiles⟩ := tiles_of_plan hm
  refine ⟨c, hc, hname.symm, _, htiles, ?_⟩
  cases hcp : checkpointAt env w m chainId c.name with
  | none =>
    refine ⟨UInt64.le_refl _, fun e _ hlo hhi => ?_⟩
    exact absurd (UInt64.lt_of_lt_of_le hhi hlo) (UInt64.lt_irrefl _)
  | some k =>
    unfold checkpointAt at hcp
    split_ifs at hcp
    obtain ⟨k', hk', rfl⟩ := Option.map_eq_some_iff.mp hcp
    exact hw.behind c hc k' hk'

/-- The invariant of the range loop once the rounds of `done` are over. -/
structure RoundInv (co : BackfillCoordinator V) (chainId currentBlock : UInt64)
    (events : String → List DecodedEvent) (rows : DecodedEvent → List (String × Row))
    (plans : List BackfillPlan) (done : List ℕ) (w : World V) : Prop where
  accounted : co.Accounted chainId events rows w
  begun : ∀ p ∈ plans, co.Begun chainId currentBlock events rows w p
  sent : ∀ i ∈ done, ∀ e ∈ plans.flatMap (rangeEvents events i), RowsSent rows w e

variable {plans : List BackfillPlan} {done : List ℕ}

theorem RoundInv.of_eq {w w' : World V}
    (h : co.RoundInv chainId currentBlock events rows plans done w)
    (hcp : w'.checkpoints = w.checkpoints) (hdis : w'.dispatched = w.dispatched)
    (hsent : ∀ s ∈ w.sent, s ∈ w'.sent) :
    co.RoundInv chainId currentBlock events rows plans done w' where
  accounted := h.accounted.of_eq hcp hdis hsent
  begun p hp := by
    obtain ⟨c, hc, hname, start, htiles, hle, hall⟩ := h.begun p hp
    exact ⟨c, hc, hname, start, htiles, hle, fun e he hlo hhi => (hall e he hlo hhi).mono hsent⟩
  sent i hi e he := (h.sent i hi e he).mono hsent

theorem RoundInv.handOut {w : World V}
    (h : co.RoundInv chainId currentBlock events rows plans done w) {i : ℕ} {e : DecodedEvent}
    (he : e ∈ plans.flatMap (rangeEvents events i)) :
    co.RoundInv chainId currentBlock events rows plans done
      { w with dispatched := w.dispatched ++ [(i, e)] } where
  accounted := {
    behind := h.accounted.behind
    handed := by
      intro d hd
      rcases List.mem_append.mp hd with hd | hd
      · exact h.accounted.handed d hd
      · rw [List.mem_singleton.mp hd]
        obtain ⟨p, hp, he⟩ := List.mem_flatMap.mp he
        obtain ⟨range, hrange, hmem, hcov⟩ := mem_rangeEvents.mp he
        obtain ⟨c, hc, hname, start, htiles, hle, -⟩ := h.begun p hp
        refine ⟨c, hc, by rw [hname]; exact hmem, ?_⟩
        have hstart := htiles.le_fromBlock (List.mem_of_getElem? hrange)
        exact UInt64.le_trans (UInt64.le_trans hle (UInt64.le_iff_toNat_le.mpr hstart)) hcov.1 }
  begun := h.begun
  sent := h.sent

/-- The checkpoint that the i-th round writes for a plan: all events below it lie below the start
of the plan or in one of the ranges up to the i-th. -/
theorem RoundInv.putCheckpoint {w : World V}
    (hdistinct : ((co.chainContracts chainId).map ContractConfig.name).Nodup) {i : ℕ}
    (h : co.RoundInv chainId currentBlock events rows plans (List.range (i + 1)) w)
    {p : BackfillPlan} (hp : p ∈ plans) {range : BlockRange} (hrange : p.ranges[i]? = some range) :
    co.RoundInv chainId currentBlock events rows plans (List.range (i + 1)) { w with
      checkpoints := Function.update w.checkpoints (chainId, p.contractName)
        (some (range.toBlock + 1).toInt64) } where
  accounted := {
    handed := h.accounted.handed
    behind := by
      intro c hc k hk
      by_cases hname : c.name = p.contractName
      · rw [hname] at hk
        dsimp only at hk
        rw [Function.update_self] at hk
        cases hk
        rw [UInt64.toUInt64_toInt64]
        obtain ⟨c', hc', hname', start, htiles, hle, hbefore⟩ := h.begun p hp
        have hcc : c' = c := List.inj_on_of_nodup_map hdistinct hc' hc (hname'.trans hname.symm)
        subst hcc
        obtain ⟨hlo, -, hsucc, hcov⟩ := htiles.of_getElem? hrange
        rw [UInt64.le_iff_toNat_le] at hle
        refine ⟨UInt64.le_iff_toNat_le.mpr (by omega), fun e he hfrom hto => ?_⟩
        by_cases hstart : e.rawLog.blockNumber < start
        · exact hbefore e he hfrom hstart
        · rw [UInt64.lt_iff_toNat_lt] at hstart hto
          obtain ⟨q, hq, hcovers⟩ := hcov e.rawLog.blockNumber (by omega)
            (UInt64.le_iff_toNat_le.mpr (by omega))
          obtain ⟨j, hj, hjq⟩ := List.mem_take_iff_getElem.mp hq
          refine h.sent j (List.mem_range.mpr (by omega)) e (List.mem_flatMap.mpr ⟨p, hp, ?_⟩)
          refine mem_rangeEvents.mpr ⟨q, ?_, by rw [← hname]; exact he, hcovers⟩
          rw [← hjq]
          exact List.getElem?_eq_getElem _
      · dsimp only at hk
        have hne : (chainId, c.name) ≠ (chainId, p.contractName) := fun h => hname (Prod.ext_iff.mp h).2
        rw [Function.update_of_ne hne] at hk
        exact h.accounted.behind c hc k hk }
  begun := h.begun
  sent := h.sent

theorem eq_range_of_range_eq {m : ℕ} {pre post : List ℕ} {i : ℕ}
    (h : List.range m = pre ++ i :: post) : pre = List.range i := by
  have hlen : pre.length = i := by
    have hget : (List.range m)[pre.length]? = some i := by rw [h]; simp
    rw [List.getElem?_range] at hget
    · simpa using hget
    · have := congrArg List.length h
      simp at this
      omega
  have htake : pre = (List.range m).take i := by
    rw [h, ← hlen]
    simp
  have hle : i ≤ m := by
    have := congrArg List.length h
    simp at this
    omega
  rw [htake, List.take_range, Nat.min_eq_left hle]

theorem mem_batch (hback : co.InsertHandlers env chainId events rows) {w : World V} {n : ℕ}
    (hplans : co.plansFrom env chainId currentBlock w n (co.chainContracts chainId) = .ok plans)
    {i : ℕ} {es : List DecodedEvent} (hes : co.fetchAll chainId plans i = .ok es) :
    (es.insertionSort DecodedEvent.le).Perm (plans.flatMap (rangeEvents events i)) := by
  have hok : (co.fetchAll chainId plans i).isOk = true := by rw [hes]; rfl
  have hperm := batch_perm hback.exact hplans hok
  unfold batch at hperm
  rw [hes] at hperm
  exact hperm

theorem rowsSent_of_stmts (hback : co.InsertBackfill env chainId events rows) {w : World V}
    {es : List DecodedEvent} (hes : ∀ e ∈ es, ∃ name, e ∈ events name)
    (hsent : ∀ t, ∀ s ∈ WriteBuffer.flushStmts co.writeBuffer t (rowsTo t (es.flatMap rows)),
      s ∈ w.sent) {e : DecodedEvent} (he : e ∈ es) : RowsSent rows w e := by
  intro x hx
  obtain ⟨name, hname⟩ := hes e he
  obtain ⟨d, hfind⟩ := Option.isSome_iff_exists.mp (hback.known name e hname x hx)
  obtain ⟨hd, hdn⟩ := mem_of_find hfind
  obtain ⟨pk, hpk⟩ := pk_of_validateSchema hback.valid hd
  have hcols := (WriteBuffer.new_of_mem hback.valid hd hpk).1
  rw [hdn, ← hback.buffer] at hcols
  have hmem : x.2 ∈ WriteBuffer.ofKind .insert (rowsTo x.1 (es.flatMap rows)) := by
    refine List.mem_filter.mpr ⟨mem_rowsTo.mpr (List.mem_flatMap.mpr ⟨e, he, hx⟩), ?_⟩
    simp [Row.kind, hback.marked e x hx]
  refine ⟨d.columnNames, _, hmem, hsent x.1 _ ?_⟩
  unfold WriteBuffer.flushStmts WriteBuffer.insertStmts
  rw [hcols]
  have hne : ¬(WriteBuffer.ofKind .insert (rowsTo x.1 (es.flatMap rows))).isEmpty = true := by
    rw [List.isEmpty_iff]
    exact List.ne_nil_of_mem hmem
  simp only [if_neg hne]
  exact List.mem_append_left _ (List.mem_singleton_self _)

variable [DecidableEq V]

theorem processRange_roundInv (hback : co.InsertBackfill env chainId events rows) {w₀ : World V}
    {n : ℕ}
    (hplans : co.plansFrom env chainId currentBlock w₀ n (co.chainContracts chainId) = .ok plans)
    {i : ℕ} (hfit : ∀ table, (rowsTo table ((plans.flatMap (rangeEvents events i)).flatMap
      rows)).length ≤ co.writeBuffer.maxSize) :
    Proc.Triple
      (fun w => Holds w (fun _ => []) ∧
        co.RoundInv chainId currentBlock events rows plans (List.range i) w)
      (co.processRange env chainId plans i)
      (fun _ w => Holds w (fun _ => []) ∧
        co.RoundInv chainId currentBlock events rows plans (List.range (i + 1)) w)
      (co.Accounted chainId events rows) := by
  refine Proc.Triple.bind (Q := fun es w => co.fetchAll chainId plans i = .ok es ∧
    Holds w (fun _ => []) ∧ co.RoundInv chainId currentBlock events rows plans (List.range i) w)
    (Proc.Triple.ofExcept (fun es hes w hw => ⟨hes, hw⟩) fun w hw => hw.2.accounted) fun es => ?_
  intro w ⟨hes, hw⟩
  have hperm := mem_batch hback.toInsertHandlers hplans hes
  have hevent : ∀ e ∈ es.insertionSort DecodedEvent.le,
      e ∈ plans.flatMap (rangeEvents events i) := fun e he => hperm.mem_iff.mp he
  have hnamed : ∀ e ∈ es.insertionSort DecodedEvent.le, ∃ name, e ∈ events name := by
    intro e he
    obtain ⟨p, -, hep⟩ := List.mem_flatMap.mp (hevent e he)
    obtain ⟨range, -, hmem, -⟩ := mem_rangeEvents.mp hep
    exact ⟨p.contractName, hmem⟩
  have hfit' : ∀ table, (rowsTo table ((es.insertionSort DecodedEvent.le).flatMap rows)).length ≤
      co.writeBuffer.maxSize :=
    fun table => (length_rowsTo_perm hperm rows table).trans_le (hfit table)
  -- the handlers run, and all rows of the batch fit into the buffers
  have hdispatch := dispatchAll_holds (I := co.RoundInv chainId currentBlock events rows plans
    (List.range i)) hback.inserts i (es.insertionSort DecodedEvent.le) hfit'
    (fun w _ _ hw => hw.of_eq rfl rfl fun _ hs => hs) fun w e he hw => hw.handOut (hevent e he)
  -- the flush sends them, and only then the checkpoints are written
  have hflush := (WriteBuffer.flushAll_holds co.writeBuffer env
    (fun table => rowsTo table ((es.insertionSort DecodedEvent.le).flatMap rows))
    (I := co.RoundInv chainId currentBlock events rows plans (List.range i))
    (fun w _ _ _ hw => hw.of_eq rfl rfl fun _ hs => List.mem_append_left _ hs)
    fun w _ _ hw => hw.of_eq rfl rfl fun _ hs => hs).mapErr (g := SyncError.database)
  have hsave : Proc.Triple
      (fun w => Holds w (fun _ => []) ∧
        co.RoundInv chainId currentBlock events rows plans (List.range (i + 1)) w)
      (Proc.forEach (saveCheckpoint env chainId i) plans)
      (fun _ w => Holds w (fun _ => []) ∧
        co.RoundInv chainId currentBlock events rows plans (List.range (i + 1)) w)
      (fun w => Holds w (fun _ => []) ∧
        co.RoundInv chainId currentBlock events rows plans (List.range (i + 1)) w) := by
    refine Proc.Triple.forEach (I := fun _ w => Holds w (fun _ => []) ∧
      co.RoundInv chainId currentBlock events rows plans (List.range (i + 1)) w)
      fun pre p post hpre => ?_
    apply saveCheckpoint_triple
    · exact fun w hw => ⟨hw.1, hw.2.of_eq rfl rfl fun _ hs => hs⟩
    · exact fun w range hrange hw => ⟨hw.1, hw.2.putCheckpoint hback.distinct (by simp [hpre]) hrange⟩
  refine ((hdispatch.conseq (fun _ h => h) (fun _ _ h => h) fun _ h => h.accounted).bind fun _ =>
    (hflush.conseq (fun _ h => h) (fun _ w h => ?_) fun _ h => h.accounted).bind fun _ =>
      (hsave.conseq (fun _ h => h) (fun _ _ h => h) fun _ h => h.2.accounted).bind fun _ =>
        Proc.Triple.modify fun w hw => ⟨hw.1, hw.2.of_eq rfl rfl fun _ hs => hs⟩) w hw
  -- the rounds before had sent their rows, this one has sent its own
  refine ⟨h.1, h.2.1.accounted, h.2.1.begun, fun j hj e he => ?_⟩
  rw [List.range_succ] at hj
  rcases List.mem_append.mp hj with hj | hj
  · exact h.2.1.sent j hj e he
  · rw [List.mem_singleton.mp hj] at he
    exact rowsSent_of_stmts hback hnamed h.2.2 (hperm.mem_iff.mpr he)

theorem runChain_accounted (hback : co.InsertBackfill env chainId events rows) {w : World V}
    (hbuf : Holds w fun _ => []) (hw : co.Accounted chainId events rows w)
    (hfits : Fits env chainId events rows co currentBlock w) :
    Proc.Triple (fun w' => w' = w) (co.runChain env chainId currentBlock)
      (fun _ => co.Accounted chainId events rows) (co.Accounted chainId events rows) := by
  unfold runChain
  split_ifs
  · exact Proc.Triple.pure fun w' hw' => by rw [hw']; exact hw
  refine ((co.planAll_triple env chainId currentBlock w).conseq (fun _ h => h) (fun _ _ h => h)
    fun w' hw' => ?_).bind fun plans => ?_
  · obtain ⟨m, rfl⟩ := hw'
    exact hw.of_eq rfl rfl fun _ hs => hs
  intro w' ⟨hplans, m, hw'⟩
  have hstart : Holds w' (fun _ => []) ∧
      co.RoundInv chainId currentBlock events rows plans (List.range 0) w' := by
    subst hw'
    have hinv : co.RoundInv chainId currentBlock events rows plans (List.range 0) w :=
      ⟨hw, fun p hp => begun_of_plansFrom hw hplans hp, fun i hi => by simp at hi⟩
    exact ⟨hbuf, hinv.of_eq rfl rfl fun _ hs => hs⟩
  have hinit : Proc.Triple
      (fun w => Holds w (fun _ => []) ∧
        co.RoundInv chainId currentBlock events rows plans (List.range 0) w)
      (initProgress chainId plans : Proc (World V) SyncError Unit)
      (fun _ w => Holds w (fun _ => []) ∧
        co.RoundInv chainId currentBlock events rows plans (List.range 0) w)
      (co.Accounted chainId events rows) := by
    unfold initProgress
    dsimp only
    split_ifs
    · exact Proc.Triple.stop fun _ h => h.2.accounted
    · exact Proc.Triple.modify fun _ h => ⟨h.1, h.2.of_eq rfl rfl fun _ hs => hs⟩
  have hloop : Proc.Triple
      (fun w => Holds w (fun _ => []) ∧
        co.RoundInv chainId currentBlock events rows plans (List.range 0) w)
      (Proc.forEach (co.processRange env chainId plans) (List.range (maxRanges plans)))
      (fun _ w => Holds w (fun _ => []) ∧ co.RoundInv chainId currentBlock events rows plans
        (List.range (List.range (maxRanges plans)).length) w)
      (co.Accounted chainId events rows) := by
    refine Proc.Triple.forEach (I := fun pre w => Holds w (fun _ => []) ∧
      co.RoundInv chainId currentBlock events rows plans (List.range pre.length) w)
      fun pre i post hpre => ?_
    have hi : pre.length = i := by rw [eq_range_of_range_eq hpre, List.length_range]
    rw [List.length_append, List.length_singleton, hi]
    exact processRange_roundInv hback hplans fun table => hfits plans hplans i table
  exact ((hinit.bind fun _ => hloop).conseq (fun _ h => h) (fun _ _ h => h.2.accounted)
    fun _ h => h) w' hstart

end Account

/-- The worlds reached by runs of `run_chain`, each with its own chunk sizes and current block,
each ending in whatever way, and each followed by a restart of the process.  `P` is what is asked
of a run and the world it starts in. -/
inductive Restarts [DecidableEq V] (co : BackfillCoordinator V) (env : Env V) (chainId : UInt64)
    (P : BackfillCoordinator V → UInt64 → World V → Prop) (w₀ : World V) : World V → Prop
  | start : Restarts co env chainId P w₀ w₀
  | run {w : World V} (sizes : UInt64 → Option UInt64) (currentBlock : UInt64)
      (h : Restarts co env chainId P w₀ w) (hP : P (co.withChunkSizes sizes) currentBlock w) :
      Restarts co env chainId P w₀
        ((co.withChunkSizes sizes).runChain env chainId currentBlock w).2.restart

section NoLoss

variable [DecidableEq V] {co : BackfillCoordinator V} {env : Env V} {chainId : UInt64}
  {events : String → List DecodedEvent} {rows : DecodedEvent → List (String × Row)}

/-- Nothing is buffered, nothing handed out, and no contract of the chain has a checkpoint. -/
structure Untouched (co : BackfillCoordinator V) (chainId : UInt64) (w : World V) : Prop where
  buffers : Holds w fun _ => []
  dispatched : w.dispatched = []
  checkpoints : ∀ c ∈ co.chainContracts chainId, w.checkpoints (chainId, c.name) = none

theorem Restarts.accounted (hback : co.InsertBackfill env chainId events rows) {w₀ w : World V}
    (hw₀ : co.Untouched chainId w₀)
    (h : co.Restarts env chainId (Fits env chainId events rows) w₀ w) :
    Holds w (fun _ => []) ∧ co.Accounted chainId events rows w := by
  induction h with
  | start =>
    refine ⟨hw₀.buffers, ?_, ?_⟩
    · intro c hc k hk
      rw [hw₀.checkpoints c hc] at hk
      cases hk
    · intro d hd
      rw [hw₀.dispatched] at hd
      simp at hd
  | run sizes currentBlock h hfits ih =>
    have hsame : (co.withChunkSizes sizes).InsertBackfill env chainId events rows :=
      ⟨hback.toInsertHandlers.withChunkSizes sizes, hback.labelled, hback.distinct, hback.known⟩
    have hrun := (runChain_accounted hsame ih.1 ⟨ih.2.behind, ih.2.handed⟩ hfits).snd rfl
    exact ⟨fun _ => rfl, hrun.behind, hrun.handed⟩

/-- In every world reached by runs whose ranges fit into the buffer: once a checkpoint is stored
for a contract, the rows of each of its events below the checkpoint have been sent. -/
theorem restarts_rows_sent (hback : co.InsertBackfill env chainId events rows) {w₀ w : World V}
    (hw₀ : co.Untouched chainId w₀)
    (h : co.Restarts env chainId (Fits env chainId events rows) w₀ w) {c : ContractConfig}
    (hc : c ∈ co.chainContracts chainId) {k : Int64}
    (hk : w.checkpoints (chainId, c.name) = some k) {d : ℕ × DecodedEvent}
    (hd : d ∈ w.dispatched) (hname : d.2.contractName = c.name)
    (hlt : d.2.rawLog.blockNumber < k.toUInt64) {x : String × Row} (hx : x ∈ rows d.2) :
    Sent w x.1 x.2 := by
  obtain ⟨-, hacc⟩ := h.accounted hback hw₀
  obtain ⟨c', hc', hmem, hfrom⟩ := hacc.handed d hd
  have hcc : c' = c := by
    apply List.inj_on_of_nodup_map hback.distinct hc' hc
    rw [← hname, hback.labelled c'.name d.2 hmem]
  subst hcc
  exact (hacc.behind c' hc k hk).2 d.2 hmem hfrom hlt x hx

end NoLoss

/-- Two events of one contract, each with a row of its own. -/
def pairEvents (name : String) : List DecodedEvent :=
  if name = "A" then [transferAt "A" 0 0, transferAt "A" 2 0] else []

def pairRows (e : DecodedEvent) : List (String × Row) :=
  [("accounts", accountRow (if e.rawLog.blockNumber = 0 then "a" else "b") "5")]

def pairCoordinator : BackfillCoordinator String :=
  { listCoordinator String ⟨[accountsTable]⟩ [⟨"A", 0⟩] pairEvents 1 with
    dbHandlers := fun _ => some (insertHandler (WriteBuffer.new ⟨[accountsTable]⟩) pairRows) }

theorem insertBackfill_pair :
    pairCoordinator.InsertBackfill (plainEnv ⟨[accountsTable]⟩) 1 pairEvents pairRows where
  valid := by decide
  buffer := rfl
  exact := (exact_listCoordinator ⟨[accountsTable]⟩ [⟨"A", 0⟩] pairEvents 1 :
    (listCoordinator String _ _ _ _).Exact 1 pairEvents)
  labelled := by
    intro name e he
    unfold pairEvents at he
    split_ifs at he with h
    · rw [h]
      simp only [List.mem_cons, List.not_mem_nil, or_false] at he
      rcases he with rfl | rfl <;> rfl
    · simp at he
  inserts e := .inl rfl
  marked := by
    intro e x hx
    rw [List.mem_singleton.mp hx]
    rfl
  distinct := by decide
  known := by
    intro name e _ x hx
    rw [List.mem_singleton.mp hx]
    show ((plainEnv ⟨[accountsTable]⟩).schema.find "accounts").isSome
    decide

theorem fits_pair (env : Env String) (sizes : UInt64 → Option UInt64) (currentBlock : UInt64)
    (w : World String) :
    Fits env 1 pairEvents pairRows (pairCoordinator.withChunkSizes sizes) currentBlock w := by
  intro plans hplans i table
  obtain ⟨p, rest, rfl, -, hrest⟩ := plansFrom_cons hplans
  cases hrest
  have hone : ∀ es : List DecodedEvent, (rowsTo table (es.flatMap pairRows)).length ≤ es.length := by
    intro es
    refine le_trans (List.length_filterMap_le _ _) (le_of_eq ?_)
    simp [pairRows]
  have htwo : (pairEvents p.contractName).length ≤ 2 := by
    unfold pairEvents
    split_ifs <;> simp
  refine le_trans (hone _) (le_trans ?_ (show 2 ≤ 10000 by decide))
  rw [List.flatMap_singleton]
  refine le_trans ?_ htwo
  unfold rangeEvents
  cases p.ranges[i]? with
  | none => exact Nat.zero_le _
  | some range => exact List.length_filter_le _ _

/-- A run over both events, one block a range. -/
theorem restarts_rows_sent_pair :
    let w := (pairCoordinator.runChain (plainEnv ⟨[accountsTable]⟩) 1 2 (World.fresh String)).2.restart
    w.checkpoints (1, "A") = some 3 ∧ w.dispatched.length = 2 ∧
      ∀ d ∈ w.dispatched, ∀ x ∈ pairRows d.2, Sent w x.1 x.2 := by
  intro w
  have hcp : w.checkpoints (1, "A") = some 3 := by decide +kernel
  have hcount : w.dispatched.length = 2 := by decide +kernel
  have hbelow : ∀ d ∈ w.dispatched, d.2.contractName = "A" ∧ d.2.rawLog.blockNumber < 3 := by
    decide +kernel
  have hreach : pairCoordinator.Restarts (plainEnv ⟨[accountsTable]⟩) 1
      (Fits (plainEnv ⟨[accountsTable]⟩) 1 pairEvents pairRows) (World.fresh String) w :=
    Restarts.run (fun _ => some 1) 2 Restarts.start (fits_pair _ _ _ _)
  clear_value w
  refine ⟨hcp, hcount, fun d hd x hx => ?_⟩
  have hfresh : pairCoordinator.Untouched 1 (World.fresh String) :=
    ⟨fun _ => rfl, rfl, fun _ _ => rfl⟩
  exact restarts_rows_sent insertBackfill_pair hfresh hreach
    (List.mem_singleton_self (⟨"A", 0⟩ : ContractConfig)) hcp hd (hbelow d hd).1 (hbelow d hd).2 hx

end BackfillCoordinator

/-- The world after an executed `INSERT` of accounts. -/
def World.afterInsert (w : World String) (tables : String → Table String) (rows : List Row) :
    World String :=
  { w with
    clock := w.clock + 1
    tables := tables
    sent := w.sent ++ [WriteBuffer.insertStmt "accounts" ["id", "balance"] rows] }

theorem execute_copies (k : ℕ) (w : World String) :
    ∃ tables, execute (plainEnv ⟨[accountsTable]⟩) (WriteBuffer.insertStmt "accounts"
        ["id", "balance"] (List.replicate k (accountRow "a" "5"))) w =
      (.ok (), w.afterInsert tables (List.replicate k (accountRow "a" "5"))) := by
  have heff : ∃ t, (WriteBuffer.insertStmt "accounts" ["id", "balance"]
      (List.replicate k (accountRow "a" "5"))).effect (plainEnv ⟨[accountsTable]⟩) w.tables =
      some ("accounts", t) := by
    have hfind : (plainEnv ⟨[accountsTable]⟩).schema.find "accounts" = some accountsTable := by decide
    have hrow : (accountsTable.notNull.any fun c => (tupleOf (plainEnv ⟨[accountsTable]⟩) "accounts"
        ["id", "balance"] (["id", "balance"].map (accountRow "a" "5").literal) c).isNone) = false := by
      decide
    simp only [Stmt.effect, WriteBuffer.insertStmt, hfind, List.map_replicate, List.any_replicate,
      hrow, Option.bind_eq_bind, Option.bind_some, ite_self, Bool.false_eq_true, if_false]
    exact ⟨_, rfl⟩
  obtain ⟨t, ht⟩ := heff
  have hrefs : refsHold (plainEnv ⟨[accountsTable]⟩).schema
      (Function.update w.tables "accounts" t) = true := rfl
  refine ⟨Function.update w.tables "accounts" t, Proc.bind_ok_iff.mpr ⟨(), _, rfl, ?_⟩⟩
  unfold change
  dsimp only
  rw [ht]
  dsimp only
  rw [if_pos hrefs]
  rfl

theorem flushAll_copies (k : ℕ) (w : World String)
    (hbuf : w.buffers = IndexMap.empty.insert "accounts"
      (List.replicate (k + 1) (accountRow "a" "5"))) :
    ∃ stats w', (WriteBuffer.new ⟨[accountsTable]⟩).flushAll (plainEnv ⟨[accountsTable]⟩) w =
      (.ok stats, w') ∧ w'.sent = w.sent ++ [WriteBuffer.insertStmt "accounts" ["id", "balance"]
        (List.replicate (k + 1) (accountRow "a" "5"))] ∧ w'.dispatched = w.dispatched := by
  have hstmts : WriteBuffer.flushStmts (WriteBuffer.new ⟨[accountsTable]⟩) "accounts"
      (List.replicate (k + 1) (accountRow "a" "5")) =
      [WriteBuffer.insertStmt "accounts" ["id", "balance"]
        (List.replicate (k + 1) (accountRow "a" "5"))] := by
    have hcols : (WriteBuffer.new ⟨[accountsTable]⟩).tableColumns "accounts" =
        some ["id", "balance"] := by decide
    have hpk : (WriteBuffer.new ⟨[accountsTable]⟩).pkColumns "accounts" = some "id" := by decide
    have hkind : (accountRow "a" "5").kind = .insert := by decide
    simp [WriteBuffer.flushStmts, WriteBuffer.insertStmts, WriteBuffer.updateStmts,
      WriteBuffer.deleteStmts, WriteBuffer.ofKind, WriteBuffer.deleteKeys, hcols, hpk, hkind]
  have htake : WriteBuffer.take "accounts" w =
      (.ok (some (List.replicate (k + 1) (accountRow "a" "5"))),
        { w with buffers := IndexMap.empty.insert "accounts" [] }) := by
    unfold WriteBuffer.take
    rw [hbuf, IndexMap.get_insert_self]
    simp only [IndexMap.insert_insert_self]
  obtain ⟨tables, hexec⟩ := execute_copies (k + 1)
    { w with buffers := IndexMap.empty.insert "accounts" [] }
  have hrows : WriteBuffer.flushRows (WriteBuffer.new ⟨[accountsTable]⟩)
      (plainEnv ⟨[accountsTable]⟩) "accounts" (List.replicate (k + 1) (accountRow "a" "5"))
      { w with buffers := IndexMap.empty.insert "accounts" [] } =
        (.ok (), World.afterInsert { w with buffers := IndexMap.empty.insert "accounts" [] } tables
          (List.replicate (k + 1) (accountRow "a" "5"))) := by
    rw [WriteBuffer.flushRows_eq, hstmts, WriteBuffer.executeAll_singleton]
    exact Proc.mapErr_ok_iff.mpr hexec
  have horder : (plainEnv ⟨[accountsTable]⟩).order w.clock w.buffers.keys = ["accounts"] := by
    rw [hbuf]
    rfl
  obtain ⟨w', htable, hsent, hdis⟩ : ∃ w', (WriteBuffer.new ⟨[accountsTable]⟩).flushTable
      (plainEnv ⟨[accountsTable]⟩) "accounts" w = (.ok (k + 1), w') ∧
      w'.sent = w.sent ++ [WriteBuffer.insertStmt "accounts" ["id", "balance"]
        (List.replicate (k + 1) (accountRow "a" "5"))] ∧ w'.dispatched = w.dispatched := by
    refine ⟨{ World.afterInsert { w with buffers := IndexMap.empty.insert "accounts" [] } tables
      (List.replicate (k + 1) (accountRow "a" "5")) with
        totalFlushed := w.totalFlushed + (k + 1) }, ?_, rfl, rfl⟩
    refine Proc.bind_ok_iff.mpr ⟨_, _, htake, Proc.bind_ok_iff.mpr ⟨(), _, hrows,
      Proc.bind_ok_iff.mpr ⟨(), _, rfl, ?_⟩⟩⟩
    rw [List.length_replicate]
    rfl
  have hnext : (WriteBuffer.new ⟨[accountsTable]⟩).flushNext (plainEnv ⟨[accountsTable]⟩)
      IndexMap.empty "accounts" w = (.ok (IndexMap.empty.insert "accounts" (k + 1)), w') :=
    Proc.bind_of_ok htable
  refine ⟨IndexMap.empty.insert "accounts" (k + 1), w', ?_, hsent, hdis⟩
  change Proc.foldEach _ _ _ w = _
  rw [horder]
  exact Proc.bind_of_ok hnext

namespace BackfillCoordinator

/-- One event of one contract. -/
def fullEvents (name : String) : List DecodedEvent := if name = "A" then [transferAt "A" 0 0] else []

/-- A handler that inserts one row more than the buffer takes. -/
def fullRows (_ : DecodedEvent) : List (String × Row) :=
  List.replicate 10000 ("accounts", accountRow "a" "5") ++ [("accounts", accountRow "b" "7")]

def fullCoordinator : BackfillCoordinator String :=
  { listCoordinator String ⟨[accountsTable]⟩ [⟨"A", 0⟩] fullEvents 1 with
    dbHandlers := fun _ => some (insertHandler (WriteBuffer.new ⟨[accountsTable]⟩) fullRows) }

theorem insertBackfill_full :
    fullCoordinator.InsertBackfill (plainEnv ⟨[accountsTable]⟩) 1 fullEvents fullRows where
  valid := by decide
  buffer := rfl
  exact := (exact_listCoordinator ⟨[accountsTable]⟩ [⟨"A", 0⟩] fullEvents 1 :
    (listCoordinator String _ _ _ _).Exact 1 fullEvents)
  labelled := by
    intro name e he
    unfold fullEvents at he
    split_ifs at he with h
    · rw [List.mem_singleton.mp he, h]
      rfl
    · simp at he
  inserts e := .inl rfl
  marked := by
    intro e x hx
    rcases List.mem_append.mp hx with hx | hx
    · rw [List.eq_of_mem_replicate hx]
      rfl
    · rw [List.mem_singleton.mp hx]
      rfl
  distinct := by decide
  known := by
    intro name e _ x hx
    rcases List.mem_append.mp hx with hx | hx
    · rw [List.eq_of_mem_replicate hx]
      decide
    · rw [List.mem_singleton.mp hx]
      decide

/-- The world once the plan of the one contract is made. -/
def fullBegun : World String :=
  { World.fresh String with
    clock := 1
    progress := Function.update (fun _ => none) 1 (some (1, 0, 0)) }

def fullPlan : BackfillPlan := ⟨"A", 1, [⟨0, 0⟩], 1⟩

/-- The handler's error is only logged: the dispatch ends well with the buffer full. -/
theorem dispatch_full :
    ∃ w, Proc.forEach (fullCoordinator.dispatch 0) [transferAt "A" 0 0] fullBegun = (.ok (), w) ∧
      w.buffers = IndexMap.empty.insert "accounts"
        (List.replicate (9999 + 1) (accountRow "a" "5")) ∧
      w.sent = [] ∧ w.dispatched = [(0, transferAt "A" 0 0)] := by
  have hfull := insertAll_overfull (WriteBuffer.new ⟨[accountsTable]⟩) "accounts"
    (accountRow "a" "5") (accountRow "b" "7")
    { fullBegun with dispatched := [(0, transferAt "A" 0 0)] } rfl rfl
  rw [Proc.forEach_singleton]
  exact ⟨_, Proc.bind_ok_iff.mpr ⟨(), _, rfl, Proc.ignore_mapErr_of_err hfull⟩, rfl, rfl, rfl⟩

/-- The run returns `Ok` and stores its checkpoint; the last row is in no statement. -/
theorem runChain_full :
    ∃ w, fullCoordinator.runChain (plainEnv ⟨[accountsTable]⟩) 1 0 (World.fresh String) =
        (.ok (), w) ∧
      w.checkpoints (1, "A") = some 1 ∧ w.dispatched = [(0, transferAt "A" 0 0)] ∧
      w.sent = [WriteBuffer.insertStmt "accounts" ["id", "balance"]
        (List.replicate 10000 (accountRow "a" "5"))] := by
  have hplan : fullCoordinator.planAll (plainEnv ⟨[accountsTable]⟩) 1 0 (World.fresh String) =
      (.ok [fullPlan], { World.fresh String with clock := 1 }) := rfl
  have hbegin : initProgress 1 [fullPlan] { World.fresh String with clock := 1 } =
      (.ok (), fullBegun) := rfl
  obtain ⟨w₂, hdispatch, hbuf, hsent₂, hdis₂⟩ := dispatch_full
  obtain ⟨stats, w₃, hflush, hsent, hdis⟩ := flushAll_copies 9999 w₂ hbuf
  rw [hsent₂, List.nil_append] at hsent
  rw [hdis₂] at hdis
  have hsave : Proc.forEach (saveCheckpoint (plainEnv ⟨[accountsTable]⟩) 1 0) [fullPlan] w₃ =
      (.ok (), { w₃ with
        clock := w₃.clock + 1
        checkpoints := Function.update w₃.checkpoints (1, "A") (some 1) }) := by
    rw [Proc.forEach_singleton]
    rfl
  refine ⟨{ w₃ with
    clock := w₃.clock + 1
    checkpoints := Function.update w₃.checkpoints (1, "A") (some 1)
    progress := Function.update w₃.progress 1
      ((w₃.progress 1).map fun q => (q.1, q.2.1 + 1, q.2.2 + 1)) }, ?_, ?_, hdis, hsent⟩
  · have hranges : List.range (maxRanges [fullPlan]) = [0] := rfl
    unfold runChain
    rw [if_neg (by decide)]
    refine Proc.bind_ok_iff.mpr ⟨_, _, hplan, Proc.bind_ok_iff.mpr ⟨(), _, hbegin, ?_⟩⟩
    rw [hranges, Proc.forEach_singleton]
    exact Proc.bind_ok_iff.mpr ⟨[transferAt "A" 0 0], fullBegun, rfl,
      Proc.bind_ok_iff.mpr ⟨(), w₂, hdispatch, Proc.bind_ok_iff.mpr ⟨stats, w₃,
        Proc.mapErr_ok_iff.mpr hflush, Proc.bind_ok_iff.mpr ⟨(), _, hsave, rfl⟩⟩⟩⟩
  · show Function.update w₃.checkpoints (1, "A") (some (1 : Int64)) (1, "A") = some 1
    rw [Function.update_self]

/-- One event with one row more than the buffer takes: the checkpoint passes it, and the last row was
never sent. -/
theorem restarts_rows_not_sent :
    ¬∀ (co : BackfillCoordinator String) (env : Env String) (chainId : UInt64)
      (events : String → List DecodedEvent) (rows : DecodedEvent → List (String × Row))
      (w₀ w : World String), co.InsertBackfill env chainId events rows →
      co.Untouched chainId w₀ → co.Restarts env chainId (fun _ _ _ => True) w₀ w →
      ∀ c ∈ co.chainContracts chainId, ∀ k, w.checkpoints (chainId, c.name) = some k →
      ∀ d ∈ w.dispatched, d.2.contractName = c.name → d.2.rawLog.blockNumber < k.toUInt64 →
      ∀ x ∈ rows d.2, Sent w x.1 x.2 := by
  intro h
  obtain ⟨w, hrun, hcp, hdis, hsent⟩ := runChain_full
  have hreach : fullCoordinator.Restarts (plainEnv ⟨[accountsTable]⟩) 1 (fun _ _ _ => True)
      (World.fresh String) w.restart := by
    have hstep : fullCoordinator.Restarts (plainEnv ⟨[accountsTable]⟩) 1 (fun _ _ _ => True)
        (World.fresh String) (fullCoordinator.runChain (plainEnv ⟨[accountsTable]⟩) 1 0
          (World.fresh String)).2.restart :=
      Restarts.run (fun _ => some 1) 0 Restarts.start trivial
    rw [hrun] at hstep
    exact hstep
  obtain ⟨columns, rows, hmem, hstmt⟩ := h fullCoordinator (plainEnv ⟨[accountsTable]⟩) 1 fullEvents
    fullRows (World.fresh String) w.restart insertBackfill_full
    ⟨fun _ => rfl, rfl, fun _ _ => rfl⟩ hreach ⟨"A", 0⟩ (List.mem_singleton_self _) 1 hcp
    (0, transferAt "A" 0 0) (by rw [World.restart, hdis]; exact List.mem_singleton_self _) rfl
    (by decide) ("accounts", accountRow "b" "7") (List.mem_append_right _ (List.mem_singleton_self _))
  have hstmt' : WriteBuffer.insertStmt "accounts" columns rows ∈ w.sent := hstmt
  rw [hsent, List.mem_singleton] at hstmt'
  obtain ⟨-, hcols, hvalues⟩ := Stmt.insert.inj hstmt'
  subst hcols
  have hb : ["id", "balance"].map (accountRow "b" "7").literal ∈
      (List.replicate 10000 (accountRow "a" "5")).map fun r => ["id", "balance"].map r.literal := by
    rw [← hvalues]
    exact List.mem_map_of_mem hmem
  rw [List.map_replicate] at hb
  have hne := List.eq_of_mem_replicate hb
  revert hne
  decide

end BackfillCoordinator

end ForgeIndex
