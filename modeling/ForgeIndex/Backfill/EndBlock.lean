import ForgeIndex.Backfill.Order
import ForgeIndex.Config.Types
import ForgeIndex.Lib.Trace

/-!
# The end block of a contract

What a run asks of the workers, written down beside it, and the checkpoints that it leaves.  The
planner does not read `end_block`.
-/

namespace ForgeIndex

namespace BackfillCoordinator

variable {V : Type}

/-- The calls of `fetch_range` in one round: up to the first that fails, with the name that the
worker is kept under. -/
def fetchCalls (co : BackfillCoordinator V) (chainId : UInt64) (rangeIdx : ℕ) :
    List BackfillPlan → List (String × BlockRange)
  | [] => []
  | p :: ps =>
    match p.ranges[rangeIdx]? with
    | none => co.fetchCalls chainId rangeIdx ps
    | some range =>
      match co.workers (chainId, p.contractName) with
      | none => co.fetchCalls chainId rangeIdx ps
      | some fetchRange => (p.contractName, range) ::
          match fetchRange range with
          | .ok _ => co.fetchCalls chainId rangeIdx ps
          | .error _ => []

section Traced

variable [DecidableEq V]

/-- The body of the loop over the range index, which writes down its calls. -/
def processRangeTraced (co : BackfillCoordinator V) (env : Env V) (chainId : UInt64)
    (plans : List BackfillPlan) (rangeIdx : ℕ) :
    Proc (World V × List (String × BlockRange)) SyncError Unit := do
  Proc.note fun calls => calls ++ co.fetchCalls chainId rangeIdx plans
  Proc.beside (co.processRange env chainId plans rangeIdx)

/-- `run_chain`, which writes down its calls of `fetch_range`. -/
def runChainTraced (co : BackfillCoordinator V) (env : Env V) (chainId currentBlock : UInt64) :
    Proc (World V × List (String × BlockRange)) SyncError Unit :=
  if (co.chainContracts chainId).isEmpty then pure ()
  else do
    let plans ← Proc.beside (co.planAll env chainId currentBlock)
    Proc.beside (initProgress chainId plans)
    Proc.forEach (co.processRangeTraced env chainId plans) (List.range (maxRanges plans))

theorem erases_runChainTraced (co : BackfillCoordinator V) (env : Env V)
    (chainId currentBlock : UInt64) :
    Proc.Erases (co.runChainTraced env chainId currentBlock)
      (co.runChain env chainId currentBlock) := by
  unfold runChainTraced runChain
  split_ifs
  · exact Proc.erases_pure ()
  · apply (Proc.erases_beside _).bind
    intro plans
    apply (Proc.erases_beside _).bind
    intro _
    apply Proc.Erases.forEach
    intro i
    exact (Proc.erases_beside _).note_bind _

/-- The ranges that a run fetches. -/
def fetched (co : BackfillCoordinator V) (env : Env V) (chainId currentBlock : UInt64)
    (w : World V) : List (String × BlockRange) :=
  (co.runChainTraced env chainId currentBlock (w, [])).2.2

end Traced

variable {co : BackfillCoordinator V} {env : Env V} {chainId currentBlock : UInt64} {w : World V}
  {plans : List BackfillPlan}

theorem mem_fetchCalls {i : ℕ} {call : String × BlockRange}
    (h : call ∈ co.fetchCalls chainId i plans) :
    ∃ p ∈ plans, p.contractName = call.1 ∧ p.ranges[i]? = some call.2 := by
  induction plans with
  | nil => cases h
  | cons p ps ih =>
    have hlater (h : call ∈ co.fetchCalls chainId i ps) :
        ∃ q ∈ p :: ps, q.contractName = call.1 ∧ q.ranges[i]? = some call.2 := by
      obtain ⟨q, hq, hcall⟩ := ih h
      exact ⟨q, List.mem_cons_of_mem _ hq, hcall⟩
    rw [fetchCalls] at h
    cases hrange : p.ranges[i]? with
    | none =>
      rw [hrange] at h
      exact hlater h
    | some range =>
      rw [hrange] at h
      dsimp only at h
      cases hworker : co.workers (chainId, p.contractName) with
      | none =>
        rw [hworker] at h
        exact hlater h
      | some fetchRange =>
        rw [hworker] at h
        dsimp only at h
        rcases List.mem_cons.mp h with rfl | h
        · exact ⟨p, List.mem_cons_self, rfl, hrange⟩
        · cases hfetch : fetchRange range with
          | error e =>
            rw [hfetch] at h
            cases h
          | ok events =>
            rw [hfetch] at h
            exact hlater h

/-- A round whose calls all succeed asks for the range of each plan that has a worker. -/
theorem mem_fetchCalls_of_isOk {i : ℕ} (hok : (co.fetchAll chainId plans i).isOk = true)
    {p : BackfillPlan} (hp : p ∈ plans) {range : BlockRange} (hrange : p.ranges[i]? = some range)
    (hworker : (co.workers (chainId, p.contractName)).isSome = true) :
    (p.contractName, range) ∈ co.fetchCalls chainId i plans := by
  suffices hgen : ∀ acc, (plans.foldlM (co.fetchPlan chainId i) acc).isOk = true →
      (p.contractName, range) ∈ co.fetchCalls chainId i plans from hgen [] hok
  clear hok
  induction plans with
  | nil => cases hp
  | cons q ps ih =>
    intro acc hok
    rw [List.foldlM_cons] at hok
    cases hstep : co.fetchPlan chainId i acc q with
    | error e =>
      rw [hstep] at hok
      cases hok
    | ok acc' =>
      rw [hstep] at hok
      have hrest : p ∈ ps → (p.contractName, range) ∈ co.fetchCalls chainId i ps :=
        fun hmem => ih hmem acc' hok
      unfold fetchPlan at hstep
      unfold fetchCalls
      rcases List.mem_cons.mp hp with heq | hmem
      · subst heq
        obtain ⟨fetchRange, hfetchRange⟩ := Option.isSome_iff_exists.mp hworker
        rw [hrange]
        dsimp only
        rw [hfetchRange]
        exact List.mem_cons_self
      · cases hq : q.ranges[i]? with
        | none => exact hrest hmem
        | some range' =>
          rw [hq] at hstep
          dsimp only at hstep ⊢
          cases hw : co.workers (chainId, q.contractName) with
          | none => exact hrest hmem
          | some fetchRange =>
            rw [hw] at hstep
            dsimp only at hstep ⊢
            cases hfetch : fetchRange range' with
            | error e =>
              rw [hfetch] at hstep
              cases hstep
            | ok events => exact List.mem_cons_of_mem _ (hrest hmem)

/-- No plan of this name has a range that goes past `e`. -/
def PlansUpTo (name : String) (e : UInt64) (plans : List BackfillPlan) : Prop :=
  ∀ p ∈ plans, p.contractName = name → ∀ r ∈ p.ranges,
    r.toBlock ≤ e ∧ (r.toBlock + 1).toNat = r.toBlock.toNat + 1

/-- The calls for a name stay at or before `e`. -/
def CallsUpTo (name : String) (e : UInt64) (calls : List (String × BlockRange)) : Prop :=
  ∀ call ∈ calls, call.1 = name → ∀ n, call.2.Covers n → n ≤ e

/-- The checkpoint is the one of before, or at most the block after `e`. -/
def CheckpointUpTo (e : UInt64) (before after : Option Int64) : Prop :=
  after = before ∨ ∃ b, after = some b ∧ b.toUInt64.toNat ≤ e.toNat + 1

/-- The checkpoint of a contract, since it was `before`. -/
def KeptUpTo (chainId : UInt64) (name : String) (e : UInt64) (before : Option Int64)
    (w : World V) : Prop := CheckpointUpTo e before (w.checkpoints (chainId, name))

theorem callsUpTo_nil (name : String) (e : UInt64) : CallsUpTo name e [] :=
  fun _ h => absurd h List.not_mem_nil

theorem callsUpTo_fetchCalls {name : String} {e : UInt64} (hplans : PlansUpTo name e plans)
    (i : ℕ) : CallsUpTo name e (co.fetchCalls chainId i plans) := by
  intro call hcall hname n hcov
  obtain ⟨p, hp, hpname, hrange⟩ := mem_fetchCalls hcall
  obtain ⟨hle, -⟩ := hplans p hp (hpname.trans hname) call.2 (List.mem_of_getElem? hrange)
  exact UInt64.le_trans hcov.2 hle

section Kept

variable {name : String} {e : UInt64} {before : Option Int64}

theorem saveCheckpoints_kept (env : Env V) (hplans : PlansUpTo name e plans) (i : ℕ) :
    Proc.Triple (KeptUpTo (V := V) chainId name e before)
      (Proc.forEach (saveCheckpoint env chainId i) plans)
      (fun _ => KeptUpTo chainId name e before) (KeptUpTo chainId name e before) := by
  apply Proc.Triple.forEach (I := fun _ => KeptUpTo (V := V) chainId name e before)
  intro pre p post hsplit
  apply saveCheckpoint_triple
  · exact fun _ hw => hw
  · intro w range hrange hw
    unfold KeptUpTo
    dsimp only
    by_cases hname : p.contractName = name
    · obtain ⟨hle, hsucc⟩ :=
        hplans p (by simp [hsplit]) hname range (List.mem_of_getElem? hrange)
      rw [UInt64.le_iff_toNat_le] at hle
      rw [hname, Function.update_self]
      refine .inr ⟨_, rfl, ?_⟩
      rw [UInt64.toUInt64_toInt64, hsucc]
      omega
    · rw [Function.update_of_ne (by simpa using fun h => hname h.symm)]
      exact hw

theorem initProgress_kept : Proc.Triple (KeptUpTo (V := V) chainId name e before)
    (initProgress chainId plans) (fun _ => KeptUpTo chainId name e before)
    (KeptUpTo chainId name e before) := by
  unfold initProgress
  dsimp only
  split_ifs
  · exact Proc.Triple.stop fun _ h => h
  · exact Proc.Triple.modify fun _ h => h

variable [DecidableEq V]

theorem processRange_kept (env : Env V) (hplans : PlansUpTo name e plans) (i : ℕ) :
    Proc.Triple (KeptUpTo chainId name e before) (co.processRange env chainId plans i)
      (fun _ => KeptUpTo chainId name e before) (KeptUpTo chainId name e before) := by
  refine Proc.Triple.bind (Q := fun _ => KeptUpTo chainId name e before)
    (Proc.Triple.ofExcept (fun _ _ _ hw => hw) fun _ hw => hw) fun es => ?_
  have hdispatch : Proc.Triple (KeptUpTo chainId name e before)
      (Proc.forEach (co.dispatch i) (es.insertionSort DecodedEvent.le))
      (fun _ => KeptUpTo chainId name e before) (KeptUpTo chainId name e before) := by
    apply Proc.Triple.forEach (I := fun _ => KeptUpTo (V := V) chainId name e before)
    intro _ event _ _
    refine Proc.Triple.bind (Q := fun _ => KeptUpTo chainId name e before)
      (Proc.Triple.modify fun _ hw => hw) fun _ => ?_
    exact co.callHandler_triple event fun _ _ _ hw => hw
  have hflush := (WriteBuffer.flushAll_frame co.writeBuffer env
    (I := KeptUpTo chainId name e before) fun _ _ _ _ _ _ hw => hw).mapErr
      (g := SyncError.database)
  apply hdispatch.bind
  intro _
  apply (hflush.conseq (fun _ h => h) (fun _ _ h => h.1) fun _ h => h).bind
  intro _
  apply (saveCheckpoints_kept env hplans i).bind
  intro _
  exact Proc.Triple.modify fun _ hw => hw

theorem processRangeTraced_kept (env : Env V) (hplans : PlansUpTo name e plans) (i : ℕ) :
    Proc.Triple (fun s => KeptUpTo chainId name e before s.1 ∧ CallsUpTo name e s.2)
      (co.processRangeTraced env chainId plans i)
      (fun _ s => KeptUpTo chainId name e before s.1 ∧ CallsUpTo name e s.2)
      fun s => KeptUpTo chainId name e before s.1 ∧ CallsUpTo name e s.2 := by
  refine Proc.Triple.bind
    (Q := fun _ s => KeptUpTo chainId name e before s.1 ∧ CallsUpTo name e s.2) ?_
    fun _ => (processRange_kept env hplans i).beside (CallsUpTo name e)
  apply Proc.Triple.modify
  intro s ⟨hkept, hcalls⟩
  refine ⟨hkept, ?_⟩
  intro call hcall
  rcases List.mem_append.mp hcall with hcall | hcall
  · exact hcalls call hcall
  · exact callsUpTo_fetchCalls hplans i call hcall

theorem runChainTraced_kept (co : BackfillCoordinator V) (env : Env V)
    (chainId currentBlock : UInt64) (w : World V) (name : String) (e : UInt64)
    (hplans : ∀ plans, co.plansFrom env chainId currentBlock w w.clock
      (co.chainContracts chainId) = .ok plans → PlansUpTo name e plans) :
    Proc.Triple (fun s => s = (w, [])) (co.runChainTraced env chainId currentBlock)
      (fun _ s => KeptUpTo chainId name e (w.checkpoints (chainId, name)) s.1 ∧
        CallsUpTo name e s.2)
      fun s => KeptUpTo chainId name e (w.checkpoints (chainId, name)) s.1 ∧
        CallsUpTo name e s.2 := by
  unfold runChainTraced
  split_ifs
  · apply Proc.Triple.pure
    rintro _ rfl
    exact ⟨.inl rfl, callsUpTo_nil name e⟩
  · refine Proc.Triple.bind (Q := fun plans s => (co.plansFrom env chainId currentBlock w w.clock
      (co.chainContracts chainId) = .ok plans ∧ ∃ m, s.1 = { w with clock := m }) ∧ s.2 = []) ?_
      fun plans => ?_
    · apply ((co.planAll_triple env chainId currentBlock w).beside (· = [])).conseq
      · rintro _ rfl
        exact ⟨rfl, rfl⟩
      · exact fun _ _ h => h
      · rintro s ⟨⟨m, hw⟩, hcalls⟩
        rw [hcalls, hw]
        exact ⟨.inl rfl, callsUpTo_nil name e⟩
    · rintro s ⟨⟨hfrom, m, hw⟩, hcalls⟩
      have hloop : Proc.Triple
          (fun s => KeptUpTo chainId name e (w.checkpoints (chainId, name)) s.1 ∧
            CallsUpTo name e s.2)
          (Proc.forEach (co.processRangeTraced env chainId plans) (List.range (maxRanges plans)))
          (fun _ s => KeptUpTo chainId name e (w.checkpoints (chainId, name)) s.1 ∧
            CallsUpTo name e s.2)
          fun s => KeptUpTo chainId name e (w.checkpoints (chainId, name)) s.1 ∧
            CallsUpTo name e s.2 :=
        Proc.Triple.forEach (I := fun _ (s : World V × List (String × BlockRange)) =>
          KeptUpTo chainId name e (w.checkpoints (chainId, name)) s.1 ∧ CallsUpTo name e s.2)
          fun _ i _ _ => processRangeTraced_kept env (hplans plans hfrom) i
      apply ((initProgress_kept.beside (CallsUpTo name e)).bind fun _ => hloop) s
      rw [hcalls, hw]
      exact ⟨.inl rfl, callsUpTo_nil name e⟩

end Kept

variable [DecidableEq V]

theorem processRange_isOk (co : BackfillCoordinator V) (env : Env V) (chainId : UInt64)
    (plans : List BackfillPlan) (i : ℕ) :
    Proc.Triple (fun _ => True) (co.processRange env chainId plans i)
      (fun _ _ => (co.fetchAll chainId plans i).isOk = true) fun _ => True := by
  intro w _
  exact ((co.processRange_dispatched env chainId plans i w.dispatched).conseq (fun _ h => h)
    (fun _ _ h => h.1) fun _ _ => trivial) w rfl

/-- The calls of these rounds have been made, and none of them failed. -/
def Made (co : BackfillCoordinator V) (chainId : UInt64) (plans : List BackfillPlan)
    (rounds : List ℕ) (calls : List (String × BlockRange)) : Prop :=
  ∀ i ∈ rounds, (co.fetchAll chainId plans i).isOk = true ∧
    ∀ call ∈ co.fetchCalls chainId i plans, call ∈ calls

theorem processRangeTraced_made (co : BackfillCoordinator V) (env : Env V) (chainId : UInt64)
    (plans : List BackfillPlan) (pre : List ℕ) (i : ℕ) :
    Proc.Triple (fun s => co.Made chainId plans pre s.2)
      (co.processRangeTraced env chainId plans i)
      (fun _ s => co.Made chainId plans (pre ++ [i]) s.2) fun _ => True := by
  have hnote : Proc.Triple (fun s => co.Made chainId plans pre s.2)
      (Proc.note fun calls => calls ++ co.fetchCalls chainId i plans :
        Proc (World V × List (String × BlockRange)) SyncError Unit)
      (fun _ s => True ∧ co.Made chainId plans pre s.2 ∧
        ∀ call ∈ co.fetchCalls chainId i plans, call ∈ s.2) fun _ => True := by
    apply Proc.Triple.modify
    intro s hmade
    refine ⟨trivial, ?_, fun call hcall => List.mem_append_right _ hcall⟩
    intro j hj
    exact ⟨(hmade j hj).1, fun call hcall => List.mem_append_left _ ((hmade j hj).2 call hcall)⟩
  have hwork := (co.processRange_isOk env chainId plans i).beside fun calls =>
    co.Made chainId plans pre calls ∧ ∀ call ∈ co.fetchCalls chainId i plans, call ∈ calls
  apply hnote.bind
  intro _
  apply hwork.conseq (fun _ h => h)
  · intro _ s ⟨hok, hpre, hcalls⟩ j hj
    rcases List.mem_append.mp hj with hj | hj
    · exact hpre j hj
    · rw [List.mem_singleton.mp hj]
      exact ⟨hok, hcalls⟩
  · exact fun _ _ => trivial

theorem runChainTraced_calls (co : BackfillCoordinator V) (env : Env V)
    (chainId currentBlock : UInt64) (w : World V) :
    Proc.Triple (fun s => s = (w, [])) (co.runChainTraced env chainId currentBlock)
      (fun _ s => ∃ plans, co.plansFrom env chainId currentBlock w w.clock
          (co.chainContracts chainId) = .ok plans ∧
        ∀ i < maxRanges plans, (co.fetchAll chainId plans i).isOk = true ∧
          ∀ call ∈ co.fetchCalls chainId i plans, call ∈ s.2) fun _ => True := by
  unfold runChainTraced
  split_ifs with hempty
  · apply Proc.Triple.pure
    intro _ _
    rw [List.isEmpty_iff.mp hempty]
    exact ⟨[], rfl, fun i hi => absurd hi (Nat.not_lt_zero i)⟩
  · refine Proc.Triple.bind (Q := fun plans s => co.plansFrom env chainId currentBlock w w.clock
      (co.chainContracts chainId) = .ok plans) ?_ fun plans => ?_
    · apply ((co.planAll_triple env chainId currentBlock w).beside fun _ => True).conseq
      · rintro _ rfl
        exact ⟨rfl, trivial⟩
      · exact fun _ _ h => h.1.1
      · exact fun _ _ => trivial
    · intro s hfrom
      have hinit : Proc.Triple (fun _ => True)
          (initProgress chainId plans : Proc (World V) SyncError Unit) (fun _ _ => True)
          fun _ => True := by
        intro w' _
        rcases initProgress chainId plans w' with ⟨_ | _ | _, _⟩ <;> trivial
      have hstart : co.Made chainId plans [] s.2 := fun i hi => absurd hi List.not_mem_nil
      have hloop : Proc.Triple (fun s => co.Made chainId plans [] s.2)
          (Proc.forEach (co.processRangeTraced env chainId plans) (List.range (maxRanges plans)))
          (fun _ s => co.Made chainId plans (List.range (maxRanges plans)) s.2) fun _ => True :=
        Proc.Triple.forEach
          (I := fun pre (s : World V × List (String × BlockRange)) =>
            co.Made chainId plans pre s.2)
          fun pre i _ _ => processRangeTraced_made co env chainId plans pre i
      have hbegin := (hinit.beside (co.Made chainId plans [])).conseq (fun _ h => h)
        (fun _ _ h => h.2) fun _ _ => trivial
      have hall := (hbegin.bind fun _ => hloop).conseq (fun _ h => h)
        (fun _ s (h : co.Made chainId plans (List.range (maxRanges plans)) s.2) =>
          (⟨plans, hfrom, fun i hi => h i (List.mem_range.mpr hi)⟩ : ∃ plans,
            co.plansFrom env chainId currentBlock w w.clock (co.chainContracts chainId) =
              .ok plans ∧
            ∀ i < maxRanges plans, (co.fetchAll chainId plans i).isOk = true ∧
              ∀ call ∈ co.fetchCalls chainId i plans, call ∈ s.2)) fun _ _ => trivial
      exact hall s ⟨trivial, hstart⟩

/-- The run fetches no block of the contract behind its end block, and leaves no checkpoint past
the one after it. -/
def RespectsEnd (co : BackfillCoordinator V) (env : Env V) (chainId currentBlock : UInt64)
    (w : World V) (c : Config.Contract) : Prop :=
  ∀ e, c.endBlock = some (.number e) →
    CallsUpTo c.name e (co.fetched env chainId currentBlock w) ∧
    CheckpointUpTo e (w.checkpoints (chainId, c.name))
      ((co.runChain env chainId currentBlock w).2.checkpoints (chainId, c.name))

/-- The chain has not gone past the end block, or all contracts of the name start in the future. -/
def EndsInTime (co : BackfillCoordinator V) (env : Env V) (chainId currentBlock : UInt64)
    (w : World V) (c : Config.Contract) : Prop :=
  ∀ e, c.endBlock = some (.number e) → currentBlock ≤ e ∨
    ∀ k c', (co.chainContracts chainId)[k]? = some c' → c'.name = c.name →
      currentBlock < startOf env chainId w k c'

omit [DecidableEq V] in
theorem plansUpTo_of_endsInTime {c : Config.Contract} {e : UInt64}
    (h : currentBlock ≤ e ∨ ∀ k c', (co.chainContracts chainId)[k]? = some c' →
      c'.name = c.name → currentBlock < startOf env chainId w k c')
    (hplans : co.plansFrom env chainId currentBlock w w.clock (co.chainContracts chainId) =
      .ok plans) : PlansUpTo c.name e plans := by
  intro p hp hname r hr
  obtain ⟨k, hk⟩ := List.getElem?_of_mem hp
  obtain ⟨c', hc', hplan⟩ := (getElem?_plansFrom hplans).mp hk
  obtain ⟨hpname, htiles⟩ := tiles_of_plan hplan
  obtain ⟨i, hi⟩ := List.getElem?_of_mem hr
  obtain ⟨hlo, hhi, hsucc, -⟩ := htiles.of_getElem? hi
  refine ⟨?_, hsucc⟩
  rw [UInt64.le_iff_toNat_le]
  rcases h with hcur | hfuture
  · rw [UInt64.le_iff_toNat_le] at hcur
    omega
  · have hstart := hfuture k c' hc' (hpname.symm.trans hname)
    rw [UInt64.lt_iff_toNat_lt] at hstart
    unfold startOf at hstart
    omega

/-- A run respects the end block of a contract when the chain has not gone past it, or when the
contract and its namesakes start in the future; a run that returns `Ok`, with a worker for the
contract, respects it in no other case. -/
theorem runChain_respectsEnd_iff (co : BackfillCoordinator V) (env : Env V)
    (chainId currentBlock : UInt64) (w : World V) (c : Config.Contract) :
    (co.EndsInTime env chainId currentBlock w c → co.RespectsEnd env chainId currentBlock w c) ∧
    ((co.runChain env chainId currentBlock w).1 = .ok () →
      (co.workers (chainId, c.name)).isSome = true →
      (co.RespectsEnd env chainId currentBlock w c ↔
        co.EndsInTime env chainId currentBlock w c)) := by
  obtain ⟨hend, hstate⟩ := co.erases_runChainTraced env chainId currentBlock w []
  have henough (h : co.EndsInTime env chainId currentBlock w c) :
      co.RespectsEnd env chainId currentBlock w c := by
    intro e he
    have hkept := (co.runChainTraced_kept env chainId currentBlock w c.name e fun plans hplans =>
      plansUpTo_of_endsInTime (h e he) hplans).snd rfl
    rw [KeptUpTo, hstate] at hkept
    exact ⟨hkept.2, hkept.1⟩
  refine ⟨henough, fun hok hworker => ⟨fun h e he => ?_, henough⟩⟩
  by_contra hlate
  push Not at hlate
  obtain ⟨hpast, k, c', hc', hname, hstart⟩ := hlate
  -- the last range of this contract's plan reaches the current block
  rw [← hend] at hok
  obtain ⟨plans, hplans, hcalls⟩ :=
    (co.runChainTraced_calls env chainId currentBlock w).of_ok rfl (Proc.eq_ok_of_fst hok)
  have hlen : k < plans.length := by
    have hnames := congrArg List.length (plansFrom_names hplans)
    have hk := (List.getElem?_eq_some_iff.mp hc').1
    simp only [List.length_map] at hnames
    omega
  obtain ⟨c'', hc'', hplan⟩ := (getElem?_plansFrom hplans).mp (List.getElem?_eq_getElem hlen)
  rw [hc'] at hc''
  cases hc''
  have hpname : plans[k].contractName = c.name := (tiles_of_plan hplan).1.trans hname
  obtain ⟨range, hrange, hcov⟩ := (plan_covers_iff hplan _ currentBlock).mpr
    ⟨UInt64.not_lt.mp hstart, UInt64.le_refl _, rfl⟩
  have hmem : plans[k] ∈ plans := List.getElem_mem hlen
  have hround := lt_of_lt_of_le (List.getElem?_eq_some_iff.mp hrange).1 (length_le_maxRanges hmem)
  obtain ⟨hisOk, hmade⟩ := hcalls _ hround
  have hcall := hmade _ (mem_fetchCalls_of_isOk hisOk hmem hrange (by rw [hpname]; exact hworker))
  have hle := (h e he).1 _ hcall hpname currentBlock hcov
  exact hpast hle

/-- A contract from block 0 to block 5, on a chain that has reached block 9. -/
def endedContract : Config.Contract where
  name := "A"
  startBlock := 0
  abiJson := "[]"
  chainNames := ["mainnet"]
  address := .multiple []
  endBlock := some (.number 5)
  filter := none
  includeTransaction := false
  includeTrace := false

/-- In chunks of four blocks the range from 8 to 9 is fetched, and the checkpoint is 10. -/
theorem runChain_not_respectsEnd :
    ¬∀ (co : BackfillCoordinator String) (env : Env String) (chainId currentBlock : UInt64)
      (w : World String) (c : Config.Contract),
      c.toContractConfig ∈ co.chainContracts chainId →
      0 < (co.chainChunkSizes chainId).getD defaultChunkSize →
      co.RespectsEnd env chainId currentBlock w c := by
  intro h
  let co := listCoordinator String ⟨[]⟩ [endedContract.toContractConfig] (fun _ => []) 4
  have hend := h co (plainEnv ⟨[]⟩) 1 9 (World.fresh String) endedContract
    (List.mem_singleton_self _) (by decide) 5 rfl
  have hfetched : co.fetched (plainEnv ⟨[]⟩) 1 9 (World.fresh String) =
      [("A", ⟨0, 3⟩), ("A", ⟨4, 7⟩), ("A", ⟨8, 9⟩)] := by decide +kernel
  rw [hfetched] at hend
  have hlast := hend.1 ("A", ⟨8, 9⟩) (by simp) rfl 9 (by decide)
  exact absurd hlast (by decide)

end BackfillCoordinator

end ForgeIndex
