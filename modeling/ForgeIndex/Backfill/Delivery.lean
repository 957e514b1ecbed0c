import Mathlib.Data.List.Perm.Basic
import ForgeIndex.Backfill.Coordinator

/-!
# What a backfill hands to the handlers

The plans of a run are a function of the world it starts in.  Each round of the range loop
dispatches the events of one range of each plan, and over all rounds every plan is walked from
its first range to its last.
-/

namespace ForgeIndex

variable {V : Type}

/-- The checkpoint that the n-th statement reads. -/
def checkpointAt (env : Env V) (w : World V) (n : ℕ) (chainId : UInt64) (contract : String) :
    Option UInt64 :=
  if env.fate n = .executed then (w.checkpoints (chainId, contract)).map Int64.toUInt64 else none

theorem attempt_getCheckpoint {ε : Type} (env : Env V) (chainId : UInt64) (contract : String)
    (w : World V) (n : ℕ) :
    Proc.Triple (fun w' => w' = { w with clock := n })
      (Proc.attempt (getCheckpoint env chainId contract) : Proc (World V) ε _)
      (fun x w' => x.toOption.getD none = checkpointAt env w n chainId contract ∧
        w' = { w with clock := n + 1 })
      (fun w' => w' = { w with clock := n + 1 }) := by
  intro w' hw
  subst hw
  have hsend : getCheckpoint env chainId contract = Proc.bind (send env) _ := rfl
  unfold Proc.attempt checkpointAt
  rw [hsend]
  unfold Proc.bind send
  cases env.fate n with
  | killed => rfl
  | rejected => exact ⟨rfl, rfl⟩
  | executed => exact ⟨rfl, rfl⟩

namespace BackfillCoordinator

/-- The plan of one contract whose checkpoint the n-th statement reads. -/
def planAt (co : BackfillCoordinator V) (env : Env V) (chainId currentBlock : UInt64)
    (w : World V) (n : ℕ) (c : ContractConfig) : Except PlanFailure BackfillPlan :=
  plan c chainId currentBlock (checkpointAt env w n chainId c.name)
    ((co.chainChunkSizes chainId).getD defaultChunkSize)

/-- The plans of a run that starts in `w`. -/
def plansFrom (co : BackfillCoordinator V) (env : Env V) (chainId currentBlock : UInt64)
    (w : World V) : ℕ → List ContractConfig → Except PlanFailure (List BackfillPlan)
  | _, [] => .ok []
  | n, c :: cs => do
    let p ← co.planAt env chainId currentBlock w n c
    let ps ← co.plansFrom env chainId currentBlock w (n + 1) cs
    pure (p :: ps)

theorem planContract_triple (co : BackfillCoordinator V) (env : Env V)
    (chainId currentBlock : UInt64) (c : ContractConfig) (w : World V) (n : ℕ) :
    Proc.Triple (fun w' => w' = { w with clock := n })
      (co.planContract env chainId currentBlock c)
      (fun p w' => co.planAt env chainId currentBlock w n c = .ok p ∧
        w' = { w with clock := n + 1 })
      (fun w' => ∃ m, w' = { w with clock := m }) := by
  refine ((attempt_getCheckpoint env chainId c.name w n).conseq (fun _ h => h) (fun _ _ h => h)
    fun _ h => ⟨_, h⟩).bind fun x => ?_
  intro w' ⟨hx, hw⟩
  unfold planAt
  rw [hx]
  cases plan c chainId currentBlock (checkpointAt env w n chainId c.name)
      ((co.chainChunkSizes chainId).getD defaultChunkSize) with
  | ok p => exact ⟨rfl, hw⟩
  | error e => exact ⟨_, hw⟩

theorem planContracts_triple (co : BackfillCoordinator V) (env : Env V)
    (chainId currentBlock : UInt64) (w : World V) (cs : List ContractConfig) (n : ℕ) :
    Proc.Triple (fun w' => w' = { w with clock := n })
      (Proc.mapEach (co.planContract env chainId currentBlock) cs)
      (fun ps w' => co.plansFrom env chainId currentBlock w n cs = .ok ps ∧
        ∃ m, w' = { w with clock := m })
      (fun w' => ∃ m, w' = { w with clock := m }) := by
  induction cs generalizing n with
  | nil => exact Proc.Triple.pure fun w' hw => ⟨rfl, n, hw⟩
  | cons c cs ih =>
    refine (co.planContract_triple env chainId currentBlock c w n).bind fun p => ?_
    intro w' ⟨hp, hw⟩
    refine ((ih (n + 1)).bind fun ps => Proc.Triple.pure fun w'' hps => ?_) w' hw
    refine ⟨?_, hps.2⟩
    unfold plansFrom
    rw [hp, hps.1]
    rfl

theorem planAll_triple (co : BackfillCoordinator V) (env : Env V) (chainId currentBlock : UInt64)
    (w : World V) :
    Proc.Triple (fun w' => w' = w) (co.planAll env chainId currentBlock)
      (fun ps w' => co.plansFrom env chainId currentBlock w w.clock (co.chainContracts chainId) =
        .ok ps ∧ ∃ m, w' = { w with clock := m })
      (fun w' => ∃ m, w' = { w with clock := m }) :=
  co.planContracts_triple env chainId currentBlock w (co.chainContracts chainId) w.clock

theorem plansFrom_cons {co : BackfillCoordinator V} {env : Env V} {chainId currentBlock : UInt64}
    {w : World V} {n : ℕ} {c : ContractConfig} {cs : List ContractConfig} {ps : List BackfillPlan}
    (h : co.plansFrom env chainId currentBlock w n (c :: cs) = .ok ps) :
    ∃ p rest, ps = p :: rest ∧ co.planAt env chainId currentBlock w n c = .ok p ∧
      co.plansFrom env chainId currentBlock w (n + 1) cs = .ok rest := by
  unfold plansFrom at h
  cases hp : co.planAt env chainId currentBlock w n c with
  | error e =>
    rw [hp] at h
    cases h
  | ok p =>
    cases hrest : co.plansFrom env chainId currentBlock w (n + 1) cs with
    | error e =>
      rw [hp, hrest] at h
      cases h
    | ok rest =>
      rw [hp, hrest] at h
      cases h
      exact ⟨p, rest, rfl, rfl, rfl⟩

/-- The k-th contract is planned from the checkpoint that the k-th statement reads. -/
theorem getElem?_plansFrom {co : BackfillCoordinator V} {env : Env V}
    {chainId currentBlock : UInt64} {w : World V} {n : ℕ} {cs : List ContractConfig}
    {ps : List BackfillPlan} (h : co.plansFrom env chainId currentBlock w n cs = .ok ps)
    {k : ℕ} {p : BackfillPlan} :
    ps[k]? = some p ↔ ∃ c, cs[k]? = some c ∧
      co.planAt env chainId currentBlock w (n + k) c = .ok p := by
  induction cs generalizing n ps k with
  | nil =>
    cases h
    simp
  | cons c cs ih =>
    obtain ⟨q, rest, rfl, hq, hrest⟩ := plansFrom_cons h
    cases k with
    | zero => simp [hq]
    | succ k =>
      rw [List.getElem?_cons_succ, List.getElem?_cons_succ, ih hrest,
        show n + (k + 1) = n + 1 + k by omega]

theorem exists_planAt_of_mem {co : BackfillCoordinator V} {env : Env V}
    {chainId currentBlock : UInt64} {w : World V} {n : ℕ} {cs : List ContractConfig}
    {ps : List BackfillPlan} (h : co.plansFrom env chainId currentBlock w n cs = .ok ps)
    {p : BackfillPlan} (hp : p ∈ ps) :
    ∃ c ∈ cs, ∃ m, co.planAt env chainId currentBlock w m c = .ok p := by
  induction cs generalizing n ps with
  | nil =>
    cases h
    simp at hp
  | cons c cs ih =>
    obtain ⟨q, rest, rfl, hq, hrest⟩ := plansFrom_cons h
    rcases List.mem_cons.mp hp with rfl | hp
    · exact ⟨c, List.mem_cons_self, n, hq⟩
    · obtain ⟨c', hc', m, hm⟩ := ih hrest hp
      exact ⟨c', List.mem_cons_of_mem _ hc', m, hm⟩

theorem callHandler_triple (co : BackfillCoordinator V) (e : DecodedEvent) {I : World V → Prop}
    (hI : ∀ w buffers clock, I w → I { w with buffers, clock }) :
    Proc.Triple I (co.callHandler e) (fun _ => I) I := by
  unfold callHandler
  split
  · rename_i handler _
    split
    · exact Proc.Triple.fail fun _ hw => hw
    · rename_i future hcall
      apply Proc.Triple.ignore_invariant
      intro w hw
      obtain ⟨buffers, clock, hreach⟩ := handler.reach e future hcall w
      have h := hI w buffers clock hw
      rw [← hreach] at h
      rcases hrun : future w with ⟨a | e | _, w'⟩ <;> rw [hrun] at h <;> exact h
  · split
    · split
      · exact Proc.Triple.fail fun _ hw => hw
      · exact Proc.Triple.stop fun _ hw => hw
      · exact Proc.Triple.pure fun _ hw => hw
    · exact Proc.Triple.pure fun _ hw => hw

/-- The events of a batch are dispatched in order, each once; a run that ends early has
dispatched the first ones. -/
theorem dispatchAll_triple (co : BackfillCoordinator V) (rangeIdx : ℕ) (es : List DecodedEvent)
    (done : List (ℕ × DecodedEvent)) :
    Proc.Triple (fun w => w.dispatched = done) (Proc.forEach (co.dispatch rangeIdx) es)
      (fun _ w => w.dispatched = done ++ es.map fun e => (rangeIdx, e))
      (fun w => ∃ pre, pre <+: es ∧ w.dispatched = done ++ pre.map fun e => (rangeIdx, e)) := by
  have hloop := Proc.Triple.forEach (f := co.dispatch rangeIdx)
    (E := fun w => ∃ pre, pre <+: es ∧ w.dispatched = done ++ pre.map fun e => (rangeIdx, e))
    (I := fun pre (w : World V) => w.dispatched = done ++ pre.map fun e => (rangeIdx, e))
    fun pre e (post : List DecodedEvent) (hes : es = pre ++ e :: post) => by
      have hpre : pre ++ [e] <+: es := ⟨post, by rw [hes]; simp⟩
      refine Proc.Triple.bind (Q := fun _ w => w.dispatched =
        done ++ (pre ++ [e]).map fun e => (rangeIdx, e)) ?_ fun _ => ?_
      · apply Proc.Triple.modify
        intro w hw
        simp [hw]
      · exact (co.callHandler_triple e fun w _ _ hw => hw).conseq (fun _ h => h) (fun _ _ h => h)
          fun _ h => ⟨_, hpre, h⟩
  exact hloop.conseq (fun _ h => by simpa using h) (fun _ _ h => h) fun _ h => h

theorem saveCheckpoint_triple (env : Env V) (chainId : UInt64) (rangeIdx : ℕ) (p : BackfillPlan)
    {I : World V → Prop} (hclock : ∀ w, I w → I { w with clock := w.clock + 1 })
    (hput : ∀ w range, p.ranges[rangeIdx]? = some range → I w → I { w with
      checkpoints := Function.update w.checkpoints (chainId, p.contractName)
        (some (range.toBlock + 1).toInt64) }) :
    Proc.Triple I (saveCheckpoint env chainId rangeIdx p) (fun _ => I) I := by
  unfold saveCheckpoint
  split
  · exact Proc.Triple.pure fun _ hw => hw
  · rename_i range hrange
    apply Proc.Triple.ignore_invariant
    exact (send_triple env hclock).bind fun _ => Proc.Triple.modify fun w hw =>
      hput w range hrange hw

section Leaves

variable {γ : Type} {g : World V → γ}

theorem leaves_dispatchAll
    (hg : ∀ w buffers clock dispatched, g { w with buffers, clock, dispatched } = g w)
    (co : BackfillCoordinator V) (rangeIdx : ℕ) (es : List DecodedEvent) :
    Proc.Leaves g (Proc.forEach (co.dispatch rangeIdx) es) := by
  apply Proc.Leaves.forEach
  intro e
  apply (Proc.Leaves.modify fun w => hg w _ _ _).bind
  intro _ c
  exact co.callHandler_triple e fun w buffers clock hw => (hg w buffers clock _).trans hw

theorem leaves_saveCheckpoint (hg : ∀ w clock checkpoints, g { w with clock, checkpoints } = g w)
    (env : Env V) (chainId : UInt64) (rangeIdx : ℕ) (p : BackfillPlan) :
    Proc.Leaves g (saveCheckpoint env chainId rangeIdx p) := by
  intro c
  apply saveCheckpoint_triple
  · exact fun w hw => (hg w _ _).trans hw
  · exact fun w range _ hw => (hg w _ _).trans hw

end Leaves

/-- A worker returns exactly the events of the range it is asked for, in some order.  `events`
gives the decodable matching events of a contract on the chain. -/
def Exact (co : BackfillCoordinator V) (chainId : UInt64) (events : String → List DecodedEvent) :
    Prop :=
  ∀ c ∈ co.chainContracts chainId, ∃ fetchRange, co.workers (chainId, c.name) = some fetchRange ∧
    ∀ range es, fetchRange range = .ok es →
      es.Perm ((events c.name).filter fun e => range.Covers e.rawLog.blockNumber)

/-- The events of one range of a plan. -/
def rangeEvents (events : String → List DecodedEvent) (rangeIdx : ℕ) (p : BackfillPlan) :
    List DecodedEvent :=
  p.ranges[rangeIdx]?.elim [] fun range =>
    (events p.contractName).filter fun e => range.Covers e.rawLog.blockNumber

/-- The events of each contract from its checkpoint, or its start block, to the current block. -/
def dueEvents (env : Env V) (chainId currentBlock : UInt64) (events : String → List DecodedEvent)
    (w : World V) : ℕ → List ContractConfig → List DecodedEvent
  | _, [] => []
  | n, c :: cs =>
    ((events c.name).filter fun e =>
      (checkpointAt env w n chainId c.name).getD c.startBlock ≤ e.rawLog.blockNumber ∧
        e.rawLog.blockNumber ≤ currentBlock) ++
      dueEvents env chainId currentBlock events w (n + 1) cs

section Exact

variable {co : BackfillCoordinator V} {env : Env V} {chainId currentBlock : UInt64}
  {events : String → List DecodedEvent} {w : World V}

theorem mem_rangeEvents {i : ℕ} {p : BackfillPlan} {e : DecodedEvent} :
    e ∈ rangeEvents events i p ↔ ∃ range, p.ranges[i]? = some range ∧
      e ∈ events p.contractName ∧ range.Covers e.rawLog.blockNumber := by
  unfold rangeEvents
  cases p.ranges[i]? <;> simp

theorem plansFrom_names {n : ℕ} {cs : List ContractConfig} {ps : List BackfillPlan}
    (h : co.plansFrom env chainId currentBlock w n cs = .ok ps) :
    ps.map BackfillPlan.contractName = cs.map ContractConfig.name := by
  induction cs generalizing n ps with
  | nil =>
    cases h
    rfl
  | cons c cs ih =>
    obtain ⟨p, rest, rfl, hp, hrest⟩ := plansFrom_cons h
    rw [List.map_cons, List.map_cons, ih hrest, (tiles_of_plan hp).1]

theorem fetchAll_perm {ps : List BackfillPlan} {rangeIdx : ℕ} {es : List DecodedEvent}
    (hexact : ∀ p ∈ ps, ∃ fetchRange, co.workers (chainId, p.contractName) = some fetchRange ∧
      ∀ range es, fetchRange range = .ok es →
        es.Perm ((events p.contractName).filter fun e => range.Covers e.rawLog.blockNumber))
    (h : co.fetchAll chainId ps rangeIdx = .ok es) :
    es.Perm (ps.flatMap (rangeEvents events rangeIdx)) := by
  -- the accumulator of the loop stands in front of what the remaining plans contribute
  suffices hgen : ∀ acc es, ps.foldlM (co.fetchPlan chainId rangeIdx) acc = .ok es →
      es.Perm (acc ++ ps.flatMap (rangeEvents events rangeIdx)) from hgen [] es h
  clear h
  induction ps with
  | nil =>
    intro acc es h
    cases h
    simp
  | cons p ps ih =>
    intro acc es h
    rw [List.foldlM_cons] at h
    obtain ⟨fetchRange, hworker, hperm⟩ := hexact p List.mem_cons_self
    have hrest := ih fun q hq => hexact q (List.mem_cons_of_mem _ hq)
    rw [List.flatMap_cons, ← List.append_assoc]
    unfold fetchPlan at h
    cases hrange : p.ranges[rangeIdx]? with
    | none =>
      rw [hrange] at h
      simpa [rangeEvents, hrange] using hrest acc es h
    | some range =>
      rw [hrange] at h
      simp only [hworker] at h
      cases hfetch : fetchRange range with
      | error e =>
        rw [hfetch] at h
        cases h
      | ok got =>
        rw [hfetch] at h
        have hgot : got.Perm (rangeEvents events rangeIdx p) := by
          simpa [rangeEvents, hrange] using hperm range got hfetch
        exact (hrest (acc ++ got) es h).trans
          (List.Perm.append_right _ (List.Perm.append_left _ hgot))

theorem length_le_maxRanges {ps : List BackfillPlan} {p : BackfillPlan} (hp : p ∈ ps) :
    p.ranges.length ≤ maxRanges ps := by
  induction ps with
  | nil => simp at hp
  | cons q ps ih =>
    have hcons : maxRanges (q :: ps) = max q.ranges.length (maxRanges ps) := rfl
    rw [hcons]
    rcases List.mem_cons.mp hp with rfl | hp
    · omega
    · have := ih hp
      omega

theorem flatMap_range_getElem? {α β : Type} (l : List α) (f : α → List β) {m : ℕ}
    (hm : l.length ≤ m) :
    ((List.range m).flatMap fun i => l[i]?.elim [] f) = l.flatMap f := by
  induction l generalizing m with
  | nil => simp
  | cons a l ih =>
    obtain ⟨m, rfl⟩ : ∃ k, m = k + 1 := ⟨m - 1, by simp only [List.length_cons] at hm; omega⟩
    rw [List.range_succ_eq_map, List.flatMap_cons, List.flatMap_map, List.flatMap_cons]
    have hrest := ih (m := m) (by simp only [List.length_cons] at hm; omega)
    simpa using hrest

theorem flatMap_flatMap_comm {α β γ : Type} (xs : List α) (ys : List β) (f : α → β → List γ) :
    (xs.flatMap fun x => ys.flatMap (f x)).Perm (ys.flatMap fun y => xs.flatMap fun x => f x y) := by
  induction xs with
  | nil => simp
  | cons x xs ih =>
    simp only [List.flatMap_cons]
    exact (List.Perm.append_left _ ih).trans (List.flatMap_append_perm _ _ _)

/-- Over all rounds a plan contributes the events from its start to the current block. -/
theorem rangeEvents_perm {n : ℕ} {c : ContractConfig} {p : BackfillPlan}
    (hp : co.planAt env chainId currentBlock w n c = .ok p) {m : ℕ} (hm : p.ranges.length ≤ m) :
    ((List.range m).flatMap fun i => rangeEvents events i p).Perm
      ((events c.name).filter fun e =>
        (checkpointAt env w n chainId c.name).getD c.startBlock ≤ e.rawLog.blockNumber ∧
          e.rawLog.blockNumber ≤ currentBlock) := by
  obtain ⟨hname, htiles⟩ := tiles_of_plan hp
  have hwalk := flatMap_range_getElem? p.ranges (fun range : BlockRange =>
    (events p.contractName).filter fun e => range.Covers e.rawLog.blockNumber) hm
  have hperm := htiles.flatMap_filter_perm (fun e : DecodedEvent => e.rawLog.blockNumber)
    (events p.contractName)
  rw [← hwalk, hname] at hperm
  simpa only [rangeEvents, hname, UInt64.le_iff_toNat_le] using hperm

theorem plans_perm {n m : ℕ} {cs : List ContractConfig} {ps : List BackfillPlan}
    (h : co.plansFrom env chainId currentBlock w n cs = .ok ps)
    (hm : ∀ p ∈ ps, p.ranges.length ≤ m) :
    (ps.flatMap fun p => (List.range m).flatMap fun i => rangeEvents events i p).Perm
      (dueEvents env chainId currentBlock events w n cs) := by
  induction cs generalizing n ps with
  | nil =>
    cases h
    simp [dueEvents]
  | cons c cs ih =>
    obtain ⟨p, rest, rfl, hp, hrest⟩ := plansFrom_cons h
    rw [List.flatMap_cons]
    exact (rangeEvents_perm hp (hm p List.mem_cons_self)).append
      (ih hrest fun q hq => hm q (List.mem_cons_of_mem _ hq))

end Exact

end BackfillCoordinator

instance : Std.Total DecodedEvent.le := ⟨fun a b => by
  unfold DecodedEvent.le
  simp only [UInt64.lt_iff_toNat_lt, UInt32.le_iff_toNat_le, ← UInt64.toNat_inj]
  omega⟩

instance : IsTrans DecodedEvent DecodedEvent.le := ⟨fun a b c hab hbc => by
  unfold DecodedEvent.le at *
  simp only [UInt64.lt_iff_toNat_lt, UInt32.le_iff_toNat_le, ← UInt64.toNat_inj] at *
  omega⟩

namespace BackfillCoordinator

variable [DecidableEq V] {co : BackfillCoordinator V} {env : Env V} {chainId currentBlock : UInt64}
  {events : String → List DecodedEvent}

/-- The batch of one round, in the order in which it is dispatched. -/
def batch (co : BackfillCoordinator V) (chainId : UInt64) (plans : List BackfillPlan)
    (rangeIdx : ℕ) : List DecodedEvent :=
  ((co.fetchAll chainId plans rangeIdx).toOption.getD []).insertionSort DecodedEvent.le

omit [DecidableEq V] in
theorem saveCheckpoints_dispatched (env : Env V) (chainId : UInt64) (rangeIdx : ℕ)
    (plans : List BackfillPlan) (D : List (ℕ × DecodedEvent)) :
    Proc.Triple (fun w : World V => w.dispatched = D)
      (Proc.forEach (saveCheckpoint env chainId rangeIdx) plans) (fun _ w => w.dispatched = D)
      fun w => w.dispatched = D := by
  apply Proc.Triple.forEach (I := fun _ (w : World V) => w.dispatched = D)
  intro _ p _ _
  exact saveCheckpoint_triple env chainId rangeIdx p (fun _ hw => hw) fun _ _ _ hw => hw

theorem processRange_dispatched (co : BackfillCoordinator V) (env : Env V) (chainId : UInt64)
    (plans : List BackfillPlan) (rangeIdx : ℕ) (done : List (ℕ × DecodedEvent)) :
    Proc.Triple (fun w => w.dispatched = done) (co.processRange env chainId plans rangeIdx)
      (fun _ w => (co.fetchAll chainId plans rangeIdx).isOk = true ∧
        w.dispatched = done ++ (co.batch chainId plans rangeIdx).map fun e => (rangeIdx, e))
      (fun w => ∃ pre, pre <+: co.batch chainId plans rangeIdx ∧
        w.dispatched = done ++ pre.map fun e => (rangeIdx, e)) := by
  refine Proc.Triple.bind (Q := fun es w => co.fetchAll chainId plans rangeIdx = .ok es ∧
    w.dispatched = done) ?_ fun es => ?_
  · exact Proc.Triple.ofExcept (fun es hes w hw => ⟨hes, hw⟩)
      fun w hw => ⟨[], List.nil_prefix, by simpa using hw⟩
  intro w ⟨hes, hw⟩
  have hbatch : co.batch chainId plans rangeIdx = es.insertionSort DecodedEvent.le := by
    unfold batch
    rw [hes]
    rfl
  rw [hes, hbatch]
  let D := done ++ (es.insertionSort DecodedEvent.le).map fun e => (rangeIdx, e)
  have hall (w : World V) (hw : w.dispatched = D) :
      ∃ pre, pre <+: es.insertionSort DecodedEvent.le ∧
        w.dispatched = done ++ pre.map fun e => (rangeIdx, e) :=
    ⟨_, List.prefix_rfl, hw⟩
  have hflush := flushAll_dispatched co.writeBuffer env D
  have hsave := saveCheckpoints_dispatched env chainId rangeIdx plans D
  refine ((co.dispatchAll_triple rangeIdx _ done).bind fun _ =>
    (hflush.conseq (fun _ h => h) (fun _ _ h => h) hall).bind fun _ =>
    (hsave.conseq (fun _ h => h) (fun _ _ h => h) hall).bind fun _ =>
      Proc.Triple.modify fun w hw => ?_) w hw
  exact ⟨rfl, hw⟩

/-- What the whole walk over the range index dispatches. -/
def walk (co : BackfillCoordinator V) (chainId : UInt64) (plans : List BackfillPlan) :
    List (ℕ × DecodedEvent) :=
  (List.range (maxRanges plans)).flatMap fun i => (co.batch chainId plans i).map fun e => (i, e)

omit [DecidableEq V] in
theorem map_snd_walk (co : BackfillCoordinator V) (chainId : UInt64) (plans : List BackfillPlan) :
    (co.walk chainId plans).map Prod.snd =
      (List.range (maxRanges plans)).flatMap (co.batch chainId plans) := by
  unfold walk
  rw [List.map_flatMap]
  simp

/-- A run dispatches the walk over the plans, or a first part of it when it ends early. -/
theorem runChain_dispatched (co : BackfillCoordinator V) (env : Env V)
    (chainId currentBlock : UInt64) (w : World V) :
    Proc.Triple (fun w' => w' = w) (co.runChain env chainId currentBlock)
      (fun _ w' => ∃ plans,
        co.plansFrom env chainId currentBlock w w.clock (co.chainContracts chainId) = .ok plans ∧
        (∀ i < maxRanges plans, (co.fetchAll chainId plans i).isOk = true) ∧
        w'.dispatched = w.dispatched ++ co.walk chainId plans)
      (fun w' => w'.dispatched = w.dispatched ∨ ∃ plans done,
        co.plansFrom env chainId currentBlock w w.clock (co.chainContracts chainId) = .ok plans ∧
        done <+: co.walk chainId plans ∧ w'.dispatched = w.dispatched ++ done) := by
  unfold runChain
  split_ifs with hempty
  · apply Proc.Triple.pure
    intro w' hw
    rw [List.isEmpty_iff.mp hempty]
    exact ⟨[], rfl, fun i hi => absurd hi (Nat.not_lt_zero i), by rw [hw]; simp [walk, maxRanges]⟩
  refine ((co.planAll_triple env chainId currentBlock w).conseq (fun _ h => h) (fun _ _ h => h)
    fun w' ⟨m, hw⟩ => .inl (by rw [hw])).bind fun plans => ?_
  intro w' ⟨hplans, m, hw⟩
  have hinit : Proc.Triple (fun w' => w'.dispatched = w.dispatched)
      (initProgress chainId plans : Proc (World V) SyncError Unit)
      (fun _ w' => w'.dispatched = w.dispatched) (fun w' => w'.dispatched = w.dispatched) := by
    unfold initProgress
    dsimp only
    split_ifs
    · exact Proc.Triple.stop fun _ hw => hw
    · exact Proc.Triple.modify fun _ hw => hw
  have hloop : Proc.Triple (fun w' => w'.dispatched = w.dispatched)
      (Proc.forEach (co.processRange env chainId plans) (List.range (maxRanges plans)))
      (fun _ w' => (∀ i ∈ List.range (maxRanges plans), (co.fetchAll chainId plans i).isOk = true) ∧
        w'.dispatched = w.dispatched ++ co.walk chainId plans)
      (fun w' => ∃ done, done <+: co.walk chainId plans ∧
        w'.dispatched = w.dispatched ++ done) := by
    refine (Proc.Triple.forEach (I := fun pre w' =>
      (∀ i ∈ pre, (co.fetchAll chainId plans i).isOk = true) ∧
        w'.dispatched = w.dispatched ++ pre.flatMap fun i =>
          (co.batch chainId plans i).map fun e => (i, e)) fun pre i post hpost => ?_).conseq
      (fun _ h => by simpa using h) (fun _ _ h => h) fun _ h => h
    intro w₁ ⟨hpre, hw₁⟩
    refine ((co.processRange_dispatched env chainId plans i _).conseq (fun _ h => h)
      (fun _ w₂ h => ?_) fun w₂ ⟨part, hpart, h⟩ => ?_) w₁ hw₁
    · refine ⟨fun j hj => ?_, by simp [h.2]⟩
      rcases List.mem_append.mp hj with hj | hj
      · exact hpre j hj
      · rw [List.mem_singleton.mp hj]
        exact h.1
    · refine ⟨_, ?_, h.trans (List.append_assoc _ _ _)⟩
      unfold walk
      rw [hpost, List.flatMap_append, List.flatMap_cons]
      exact (List.prefix_append_right_inj _).mpr
        ((hpart.map fun e => (i, e)).trans (List.prefix_append _ _))
  refine ((hinit.conseq (fun _ h => h) (fun _ _ h => h) fun _ h => .inl h).bind fun _ =>
    hloop.conseq (fun _ h => h) (fun _ w'' h => ?_)
      fun w'' ⟨done, hdone, h⟩ => .inr ⟨plans, done, hplans, hdone, h⟩) w' ?_
  · exact ⟨plans, hplans, fun i hi => h.1 i (List.mem_range.mpr hi), h.2⟩
  · rw [hw]

omit [DecidableEq V] in
theorem batch_perm {plans : List BackfillPlan} {n : ℕ} {w : World V}
    (hexact : co.Exact chainId events)
    (hplans : co.plansFrom env chainId currentBlock w n (co.chainContracts chainId) = .ok plans)
    {i : ℕ} (hok : (co.fetchAll chainId plans i).isOk = true) :
    (co.batch chainId plans i).Perm (plans.flatMap (rangeEvents events i)) := by
  cases hfetch : co.fetchAll chainId plans i with
  | error e =>
    rw [hfetch] at hok
    cases hok
  | ok es =>
    have hbatch : co.batch chainId plans i = es.insertionSort DecodedEvent.le := by
      unfold batch
      rw [hfetch]
      rfl
    rw [hbatch]
    refine (List.perm_insertionSort _ es).trans (fetchAll_perm (fun p hp => ?_) hfetch)
    have hname : p.contractName ∈ (co.chainContracts chainId).map ContractConfig.name := by
      rw [← plansFrom_names hplans]
      exact List.mem_map_of_mem hp
    obtain ⟨c, hc, hcp⟩ := List.mem_map.mp hname
    obtain ⟨fetchRange, hworker, hperm⟩ := hexact c hc
    rw [hcp] at hworker hperm
    exact ⟨fetchRange, hworker, hperm⟩

theorem filter_rounds {α : Type} (b : ℕ → List α) (m i : ℕ) :
    ((((List.range m).flatMap fun j => (b j).map fun a => (j, a)).filter fun d => d.1 = i).map
      Prod.snd) = if i < m then b i else [] := by
  induction m with
  | zero => simp
  | succ m ih =>
    rw [List.range_succ, List.flatMap_append, List.filter_append, List.map_append, ih]
    by_cases him : i = m
    · subst him
      simp [List.filter_map, Function.comp_def]
    · have hmi : ¬m = i := fun h => him h.symm
      have hiff : i < m + 1 ↔ i < m := by omega
      simp [List.filter_map, Function.comp_def, hmi, hiff]

/-- A backfill that returns `Ok` has handed every due event of every contract to the handlers
exactly once, and each batch in the order of the chain. -/
theorem runChain_delivers_once (hexact : co.Exact chainId events) {w w' : World V}
    (h : co.runChain env chainId currentBlock w = (.ok (), w')) :
    ∃ delivered, w'.dispatched = w.dispatched ++ delivered ∧
      (delivered.map Prod.snd).Perm
        (dueEvents env chainId currentBlock events w w.clock (co.chainContracts chainId)) ∧
      ∀ i, ((delivered.filter fun d => d.1 = i).map Prod.snd).Pairwise DecodedEvent.le := by
  obtain ⟨plans, hplans, hok, hdone⟩ :=
    (co.runChain_dispatched env chainId currentBlock w).of_ok rfl h
  refine ⟨_, hdone, ?_, fun i => ?_⟩
  · rw [map_snd_walk]
    have hrounds := List.Perm.flatMap_left (List.range (maxRanges plans))
      (f := co.batch chainId plans) (g := fun i => plans.flatMap (rangeEvents events i))
      fun i hi => batch_perm hexact hplans (hok i (List.mem_range.mp hi))
    refine hrounds.trans ((flatMap_flatMap_comm _ _ _).trans ?_)
    exact plans_perm hplans fun p hp => length_le_maxRanges hp
  · unfold walk
    rw [filter_rounds]
    split_ifs
    · exact List.pairwise_insertionSort _ _
    · exact List.Pairwise.nil

/-- A log at a position of the chain. -/
def logAt (blockNumber : UInt64) (logIndex : UInt32) : Log where
  id := ""
  chainId := 1
  address := Address.zero
  topics := []
  data := []
  blockNumber := blockNumber
  blockHash := Hash32.zero
  transactionHash := Hash32.zero
  logIndex := logIndex
  transactionIndex := 0
  removed := false

/-- A transfer of a contract at a position of the chain. -/
def transferAt (contract : String) (blockNumber : UInt64) (logIndex : UInt32) : DecodedEvent :=
  ⟨"Transfer", contract, IndexMap.empty, logAt blockNumber logIndex⟩

/-- A coordinator for chain 1 whose workers answer from a list of events. -/
def listCoordinator (V : Type) (schema : Schema) (contracts : List ContractConfig)
    (events : String → List DecodedEvent) (chunkSize : UInt64) : BackfillCoordinator V where
  workers key := some fun range =>
    .ok ((events key.2).filter fun e => range.Covers e.rawLog.blockNumber)
  registry _ := none
  dbHandlers _ := none
  writeBuffer := WriteBuffer.new schema
  chainContracts _ := contracts
  chainChunkSizes _ := some chunkSize

omit [DecidableEq V] in
theorem exact_listCoordinator (schema : Schema) (contracts : List ContractConfig)
    (events : String → List DecodedEvent) (chunkSize : UInt64) :
    (listCoordinator V schema contracts events chunkSize).Exact 1 events := by
  intro c _
  refine ⟨_, rfl, fun range es hes => ?_⟩
  cases hes
  exact List.Perm.refl _

/-- Two contracts with different start blocks, walked in chunks of four blocks. -/
theorem runChain_delivers_once_two_contracts :
    let events := fun name => if name = "A" then [transferAt "A" 8 0, transferAt "A" 1 3]
      else [transferAt "B" 6 1]
    let co := listCoordinator String ⟨[]⟩ [⟨"A", 0⟩, ⟨"B", 5⟩] events 4
    let env := plainEnv ⟨[]⟩
    let w := World.fresh String
    ∃ delivered, (co.runChain env 1 9 w).2.dispatched = w.dispatched ++ delivered ∧
      (delivered.map Prod.snd).Perm (dueEvents env 1 9 events w w.clock (co.chainContracts 1)) ∧
      ∀ i, ((delivered.filter fun d => d.1 = i).map Prod.snd).Pairwise DecodedEvent.le := by
  intro events co env w
  have hrun : (co.runChain env 1 9 w).1 = .ok () := by decide +kernel
  exact runChain_delivers_once (exact_listCoordinator _ _ _ _) (Proc.eq_ok_of_fst hrun)

end BackfillCoordinator

end ForgeIndex
