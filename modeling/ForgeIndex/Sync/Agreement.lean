import ForgeIndex.Backfill.Inserts
import ForgeIndex.Sync.Realtime

/-!
# Realtime against backfill

The realtime loop has its own copy of the range body of the backfill.  The copy asks the legacy
registry only and goes on when a worker fails, and this is all that separates the two on one block.
-/

namespace ForgeIndex

variable {V : Type}

/-- Where a handler is registered: with `ForgeIndex::on_db` or with `ForgeIndex::on`. -/
inductive Registration where
  | onDb | on
  deriving DecidableEq, Repr

/-- The handler that the backfill calls for an event. -/
def BackfillCoordinator.invokes (co : BackfillCoordinator V) (e : DecodedEvent) :
    Option (Registration × DecodedEvent) :=
  if (co.dbHandlers e.handlerKey).isSome then some (.onDb, e)
  else if (co.registry e.handlerKey).isSome then some (.on, e)
  else none

/-- The handler that the realtime loop calls for an event. -/
def RealtimeProcessor.invokes (rp : RealtimeProcessor) (e : DecodedEvent) :
    Option (Registration × DecodedEvent) :=
  if (rp.registry e.handlerKey).isSome then some (.on, e) else none

/-- The handler calls among the events that were dispatched after the first ones. -/
def invocations (invokes : DecodedEvent → Option (Registration × DecodedEvent))
    (before after : List (ℕ × DecodedEvent)) : List (Registration × DecodedEvent) :=
  (after.drop before.length).filterMap fun d => invokes d.2

/-- The processor has the workers of the plans, in their order, and the legacy registry of the
coordinator. -/
structure SameSetup (co : BackfillCoordinator V) (rp : RealtimeProcessor) (chainId : UInt64)
    (plans : List BackfillPlan) : Prop where
  workers : rp.workers =
    (plans.filterMap fun p => co.workers (chainId, p.contractName)).map fun worker _ => worker
  registry : rp.registry = co.registry

/-- A worker that is asked for one block answers with events of this block. -/
def OfBlock (rp : RealtimeProcessor) (i : ℕ) (number : UInt64) : Prop :=
  ∀ worker ∈ rp.workers, ∀ es, worker i ⟨number, number⟩ = .ok es →
    ∀ e ∈ es, e.rawLog.blockNumber = number

section Fetch

variable {co : BackfillCoordinator V} {rp : RealtimeProcessor} {chainId number : UInt64}
  {plans : List BackfillPlan} {rangeIdx : ℕ}

/-- The workers that the plans find. -/
def planWorkers (co : BackfillCoordinator V) (chainId : UInt64) (plans : List BackfillPlan) :
    List FetchRange :=
  plans.filterMap fun p => co.workers (chainId, p.contractName)

variable (co) in
theorem fetchAll_single (hrange : ∀ p ∈ plans, p.ranges[rangeIdx]? = some ⟨number, number⟩) :
    ((∀ worker ∈ planWorkers co chainId plans, ∃ es, worker ⟨number, number⟩ = .ok es) ∧
      co.fetchAll chainId plans rangeIdx = .ok ((planWorkers co chainId plans).flatMap
        fun worker => ((worker ⟨number, number⟩).toOption).getD [])) ∨
    ((∃ worker ∈ planWorkers co chainId plans, ∃ e, worker ⟨number, number⟩ = .error e) ∧
      ∃ e, co.fetchAll chainId plans rangeIdx = .error e) := by
  suffices hgen : ∀ acc,
      ((∀ worker ∈ planWorkers co chainId plans, ∃ es, worker ⟨number, number⟩ = .ok es) ∧
        plans.foldlM (co.fetchPlan chainId rangeIdx) acc =
          .ok (acc ++ (planWorkers co chainId plans).flatMap
            fun worker => ((worker ⟨number, number⟩).toOption).getD [])) ∨
      ((∃ worker ∈ planWorkers co chainId plans, ∃ e, worker ⟨number, number⟩ = .error e) ∧
        ∃ e, plans.foldlM (co.fetchPlan chainId rangeIdx) acc = .error e) from hgen []
  induction plans with
  | nil =>
    intro acc
    exact .inl ⟨fun _ hw => by simp [planWorkers] at hw, by simp [planWorkers]; rfl⟩
  | cons p plans ih =>
    intro acc
    have hrest := ih fun q hq => hrange q (List.mem_cons_of_mem _ hq)
    rw [List.foldlM_cons]
    unfold BackfillCoordinator.fetchPlan
    rw [hrange p List.mem_cons_self]
    dsimp only
    cases hworker : co.workers (chainId, p.contractName) with
    | none =>
      have hsame : planWorkers co chainId (p :: plans) = planWorkers co chainId plans := by
        simp [planWorkers, hworker]
      rw [hsame]
      exact hrest acc
    | some worker =>
      have hcons : planWorkers co chainId (p :: plans) =
          worker :: planWorkers co chainId plans := by
        simp [planWorkers, hworker]
      rw [hcons]
      dsimp only
      cases hfetch : worker ⟨number, number⟩ with
      | error e => exact .inr ⟨⟨worker, List.mem_cons_self, e, hfetch⟩, e, rfl⟩
      | ok es =>
        rcases hrest (acc ++ es) with ⟨hall, hok⟩ | ⟨⟨other, hother, hfail⟩, herr⟩
        · refine .inl ⟨fun other hother => ?_, ?_⟩
          · rcases List.mem_cons.mp hother with rfl | hother
            · exact ⟨es, hfetch⟩
            · exact hall other hother
          · rw [List.flatMap_cons, hfetch, ← List.append_assoc]
            exact hok
        · exact .inr ⟨⟨other, List.mem_cons_of_mem _ hother, hfail⟩, herr⟩

theorem fetchBlock_eq (hsetup : SameSetup co rp chainId plans) (i : ℕ) :
    rp.fetchBlock i number = (planWorkers co chainId plans).flatMap
      fun worker => ((worker ⟨number, number⟩).toOption).getD [] := by
  unfold RealtimeProcessor.fetchBlock
  rw [hsetup.workers, List.flatMap_map]
  rfl

theorem insertionSort_congr {α : Type} {r r' : α → α → Prop} [DecidableRel r] [DecidableRel r']
    {l : List α} (h : ∀ a ∈ l, ∀ b ∈ l, (r a b ↔ r' a b)) :
    l.insertionSort r = l.insertionSort r' := by
  have hinsert (a : α) (l : List α) (h : ∀ b ∈ l, (r a b ↔ r' a b)) :
      l.orderedInsert r a = l.orderedInsert r' a := by
    induction l with
    | nil => rfl
    | cons b l ih =>
      rw [List.orderedInsert, List.orderedInsert, ih fun c hc => h c (List.mem_cons_of_mem _ hc)]
      have hab := h b List.mem_cons_self
      by_cases hr : r a b
      · rw [if_pos hr, if_pos (hab.mp hr)]
      · rw [if_neg hr, if_neg fun hr' => hr (hab.mpr hr')]
  induction l with
  | nil => rfl
  | cons a l ih =>
    have hrest := ih fun b hb c hc => h b (List.mem_cons_of_mem _ hb) c (List.mem_cons_of_mem _ hc)
    rw [List.insertionSort_cons, List.insertionSort_cons, hrest]
    apply hinsert
    intro b hb
    have hmem := (List.perm_insertionSort r' l).mem_iff.mp hb
    exact h a List.mem_cons_self b (List.mem_cons_of_mem _ hmem)

theorem insertionSort_le_eq {es : List DecodedEvent}
    (h : ∀ e ∈ es, e.rawLog.blockNumber = number) :
    es.insertionSort DecodedEvent.le = RealtimeProcessor.sortByLogIndex es := by
  apply insertionSort_congr
  intro a ha b hb
  unfold DecodedEvent.le
  rw [h a ha, h b hb]
  simp

theorem blockNumber_of_mem_fetchBlock {i : ℕ} (hblock : OfBlock rp i number) {e : DecodedEvent}
    (he : e ∈ rp.fetchBlock i number) : e.rawLog.blockNumber = number := by
  obtain ⟨worker, hworker, he⟩ := List.mem_flatMap.mp he
  cases hfetch : worker i ⟨number, number⟩ with
  | error err =>
    rw [hfetch] at he
    simp [Except.toOption] at he
  | ok es =>
    rw [hfetch] at he
    exact hblock worker hworker es hfetch e he

end Fetch

section Dispatch

variable {co : BackfillCoordinator V} {rp : RealtimeProcessor}

/-- The call of the legacy handler of an event does not panic. -/
def RealtimeProcessor.goesOn (rp : RealtimeProcessor) (e : DecodedEvent) : Bool :=
  match rp.registry e.handlerKey with
  | none => true
  | some handler =>
    match handler e with
    | .error _ => false
    | .ok .stopped => false
    | .ok _ => true

/-- The events up to the first one whose handler panics. -/
def RealtimeProcessor.reached (rp : RealtimeProcessor) : List DecodedEvent → List DecodedEvent
  | [] => []
  | e :: es => if rp.goesOn e then e :: rp.reached es else [e]

theorem callHandler_goesOn {e : DecodedEvent} (h : rp.goesOn e = true) :
    (rp.callHandler e : Proc (World V) SyncError Unit) = pure () := by
  unfold RealtimeProcessor.goesOn at h
  unfold RealtimeProcessor.callHandler
  cases hreg : rp.registry e.handlerKey with
  | none => rfl
  | some handler =>
    rw [hreg] at h
    dsimp only at h ⊢
    cases hcall : handler e with
    | error message =>
      rw [hcall] at h
      cases h
    | ok ended =>
      rw [hcall] at h
      cases ended with
      | ok a => rfl
      | err e => rfl
      | stopped => cases h

theorem callHandler_panics {e : DecodedEvent} (h : rp.goesOn e = false) (w : World V) :
    ∃ r, rp.callHandler e w = (r, w) ∧ r ≠ .ok () := by
  unfold RealtimeProcessor.goesOn at h
  unfold RealtimeProcessor.callHandler
  cases hreg : rp.registry e.handlerKey with
  | none =>
    rw [hreg] at h
    cases h
  | some handler =>
    rw [hreg] at h
    dsimp only at h ⊢
    cases hcall : handler e with
    | error message => exact ⟨_, rfl, by simp⟩
    | ok ended =>
      rw [hcall] at h
      cases ended with
      | ok a => cases h
      | err e => cases h
      | stopped => exact ⟨_, rfl, by simp⟩

/-- The world after the events were handed out. -/
def World.noteAll (w : World V) (k : ℕ) (es : List DecodedEvent) : World V :=
  { w with dispatched := w.dispatched ++ es.map fun e => (k, e) }

theorem dispatch_goesOn {e : DecodedEvent} (h : rp.goesOn e = true) (k : ℕ) (w : World V) :
    rp.dispatch k e w = (.ok (), w.noteAll k [e]) := by
  change rp.callHandler e (w.noteAll k [e]) = _
  rw [callHandler_goesOn h]
  rfl

theorem dispatch_panics {e : DecodedEvent} (h : rp.goesOn e = false) (k : ℕ) (w : World V) :
    ∃ r, r ≠ .ok () ∧ ∀ f : Unit → Proc (World V) SyncError Unit,
      (rp.dispatch k e >>= f) w = (r, w.noteAll k [e]) := by
  obtain ⟨r, hcall, hr⟩ := callHandler_panics h (w.noteAll k [e])
  have hstep : rp.dispatch k e w = (r, w.noteAll k [e]) := hcall
  refine ⟨r, hr, fun f => ?_⟩
  change Proc.bind _ _ w = _
  unfold Proc.bind
  rw [hstep]
  cases r with
  | ok a => exact absurd rfl hr
  | err e => rfl
  | stopped => rfl

theorem mem_reached_cons_self {e : DecodedEvent} {es : List DecodedEvent} :
    e ∈ rp.reached (e :: es) := by
  unfold RealtimeProcessor.reached
  split_ifs <;> exact List.mem_cons_self

variable (rp) in
theorem dispatchAll_reached (k : ℕ) (es : List DecodedEvent) (w : World V) :
    ((Proc.forEach (rp.dispatch k) es w).1 = .ok () ↔ ∀ e ∈ es, rp.goesOn e = true) ∧
      (Proc.forEach (rp.dispatch k) es w).2 = w.noteAll k (rp.reached es) := by
  induction es generalizing w with
  | nil => exact ⟨by simp [Proc.forEach_nil], by simp [RealtimeProcessor.reached, World.noteAll]⟩
  | cons e es ih =>
    rw [Proc.forEach_cons]
    cases hgo : rp.goesOn e with
    | true =>
      rw [Proc.bind_of_ok (dispatch_goesOn hgo k w)]
      obtain ⟨hok, hdone⟩ := ih (w.noteAll k [e])
      refine ⟨by rw [hok]; simp [hgo], ?_⟩
      rw [hdone]
      simp [RealtimeProcessor.reached, hgo, World.noteAll]
    | false =>
      obtain ⟨r, hr, hbind⟩ := dispatch_panics hgo k w
      rw [hbind]
      refine ⟨iff_of_false hr fun h => ?_, by simp [RealtimeProcessor.reached, hgo]⟩
      have := h e List.mem_cons_self
      rw [hgo] at this
      cases this

theorem dispatch_eq (hregistry : rp.registry = co.registry) {e : DecodedEvent}
    (hdb : co.dbHandlers e.handlerKey = none) (k : ℕ) : co.dispatch k e = rp.dispatch k e := by
  unfold BackfillCoordinator.dispatch RealtimeProcessor.dispatch
  unfold BackfillCoordinator.callHandler RealtimeProcessor.callHandler
  rewrite [hdb, hregistry]
  rfl

theorem invokes_eq (hregistry : rp.registry = co.registry) {e : DecodedEvent}
    (hdb : co.dbHandlers e.handlerKey = none) : co.invokes e = rp.invokes e := by
  unfold BackfillCoordinator.invokes RealtimeProcessor.invokes
  rw [hdb, hregistry]
  rfl

theorem mem_of_mem_reached {es : List DecodedEvent} {e : DecodedEvent} (h : e ∈ rp.reached es) :
    e ∈ es := by
  induction es with
  | nil => exact h
  | cons a es ih =>
    unfold RealtimeProcessor.reached at h
    split_ifs at h
    · rcases List.mem_cons.mp h with rfl | h
      · exact List.mem_cons_self
      · exact List.mem_cons_of_mem _ (ih h)
    · rw [List.mem_singleton.mp h]
      exact List.mem_cons_self

theorem reached_of_goesOn {es : List DecodedEvent} (h : ∀ e ∈ es, rp.goesOn e = true) :
    rp.reached es = es := by
  induction es with
  | nil => rfl
  | cons e es ih =>
    unfold RealtimeProcessor.reached
    rw [if_pos (h e List.mem_cons_self), ih fun b hb => h b (List.mem_cons_of_mem _ hb)]

theorem goesOn_of_reached {es : List DecodedEvent} (h : ∀ e ∈ rp.reached es, rp.invokes e = none) :
    ∀ e ∈ es, rp.goesOn e = true := by
  induction es with
  | nil => simp
  | cons a es ih =>
    have hnone : rp.registry a.handlerKey = none := by
      have := h a mem_reached_cons_self
      unfold RealtimeProcessor.invokes at this
      simpa using this
    have hgo : rp.goesOn a = true := by
      unfold RealtimeProcessor.goesOn
      rw [hnone]
    unfold RealtimeProcessor.reached at h
    rw [if_pos hgo] at h
    intro e he
    rcases List.mem_cons.mp he with rfl | he
    · exact hgo
    · exact ih (fun e he => h e (List.mem_cons_of_mem _ he)) e he

/-- The first event among the reached ones that has an `on_db` handler: all events before it go
on in both loops. -/
theorem exists_first_onDb {es : List DecodedEvent}
    (h : ∃ e ∈ rp.reached es, co.dbHandlers e.handlerKey ≠ none) :
    ∃ pre e post, es = pre ++ e :: post ∧ co.dbHandlers e.handlerKey ≠ none ∧
      ∀ a ∈ pre, co.dbHandlers a.handlerKey = none ∧ rp.goesOn a = true := by
  induction es with
  | nil =>
    obtain ⟨e, he, -⟩ := h
    cases he
  | cons a es ih =>
    by_cases hdb : co.dbHandlers a.handlerKey = none
    · obtain ⟨e, he, hne⟩ := h
      unfold RealtimeProcessor.reached at he
      split_ifs at he with hgo
      · rcases List.mem_cons.mp he with rfl | he
        · exact absurd hdb hne
        · obtain ⟨pre, b, post, hes, hb, hpre⟩ := ih ⟨e, he, hne⟩
          refine ⟨a :: pre, b, post, by rw [hes]; rfl, hb, fun c hc => ?_⟩
          rcases List.mem_cons.mp hc with rfl | hc
          · exact ⟨hdb, hgo⟩
          · exact hpre c hc
      · rw [List.mem_singleton.mp he] at hne
        exact absurd hdb hne
    · exact ⟨[], a, es, rfl, hdb, by simp⟩

theorem dispatchAll_eq (hregistry : rp.registry = co.registry) (k : ℕ) {es : List DecodedEvent}
    (h : ∀ e ∈ rp.reached es, co.dbHandlers e.handlerKey = none) (w : World V) :
    Proc.forEach (co.dispatch k) es w = Proc.forEach (rp.dispatch k) es w := by
  induction es generalizing w with
  | nil => rfl
  | cons a es ih =>
    rw [Proc.forEach_cons, Proc.forEach_cons,
      dispatch_eq hregistry (h a mem_reached_cons_self) k]
    cases hgo : rp.goesOn a with
    | true =>
      rw [Proc.bind_of_ok (dispatch_goesOn hgo k w), Proc.bind_of_ok (dispatch_goesOn hgo k w)]
      apply ih
      intro e he
      apply h
      unfold RealtimeProcessor.reached
      rw [if_pos hgo]
      exact List.mem_cons_of_mem _ he
    | false =>
      obtain ⟨r, -, hbind⟩ := dispatch_panics hgo k w
      rw [hbind, hbind]

theorem invocations_append (invokes : DecodedEvent → Option (Registration × DecodedEvent))
    (before : List (ℕ × DecodedEvent)) (k : ℕ) (es : List DecodedEvent) :
    invocations invokes before (before ++ es.map fun e => (k, e)) = es.filterMap invokes := by
  unfold invocations
  rw [List.drop_left, List.filterMap_map]
  rfl

end Dispatch

section Agreement

variable [DecidableEq V] {co : BackfillCoordinator V} {rp : RealtimeProcessor} {env : Env V}
  {chainId : UInt64} {plans : List BackfillPlan} {rangeIdx : ℕ}

theorem processRange_handsOut {es : List DecodedEvent}
    (hfetch : co.fetchAll chainId plans rangeIdx = .ok es) (w : World V) :
    (co.processRange env chainId plans rangeIdx w).2.dispatched =
      (Proc.forEach (co.dispatch rangeIdx) (es.insertionSort DecodedEvent.le) w).2.dispatched := by
  let D := (Proc.forEach (co.dispatch rangeIdx)
    (es.insertionSort DecodedEvent.le) w).2.dispatched
  have hloop : Proc.Triple (fun w' => w' = w)
      (Proc.forEach (co.dispatch rangeIdx) (es.insertionSort DecodedEvent.le))
      (fun _ w' => w'.dispatched = D) fun w' => w'.dispatched = D := by
    rintro w' rfl
    rcases hrun : Proc.forEach (co.dispatch rangeIdx) (es.insertionSort DecodedEvent.le) w'
      with ⟨a | e | _, w''⟩ <;> simp only [Proc.Post, D, hrun]
  have hflush := flushAll_dispatched co.writeBuffer env D
  have hsave := BackfillCoordinator.saveCheckpoints_dispatched env chainId rangeIdx plans D
  have hrange : Proc.Triple (fun w' => w' = w) (co.processRange env chainId plans rangeIdx)
      (fun _ w' => w'.dispatched = D) fun w' => w'.dispatched = D := by
    unfold BackfillCoordinator.processRange
    rw [hfetch]
    exact hloop.bind fun _ => hflush.bind fun _ => hsave.bind fun _ =>
      Proc.Triple.modify fun _ hw => hw
  exact hrange.snd rfl

variable (env) in
theorem processRange_calls_onDb {es pre post : List DecodedEvent} {e : DecodedEvent}
    (hregistry : rp.registry = co.registry)
    (hfetch : co.fetchAll chainId plans rangeIdx = .ok es)
    (hes : es.insertionSort DecodedEvent.le = pre ++ e :: post)
    (hdb : co.dbHandlers e.handlerKey ≠ none)
    (hpre : ∀ a ∈ pre, co.dbHandlers a.handlerKey = none ∧ rp.goesOn a = true) (w : World V) :
    (.onDb, e) ∈ invocations co.invokes w.dispatched
      (co.processRange env chainId plans rangeIdx w).2.dispatched := by
  have hsplit : Proc.forEach (co.dispatch rangeIdx) (pre ++ e :: post) w =
      Proc.forEach (co.dispatch rangeIdx) (e :: post) (w.noteAll rangeIdx pre) := by
    have hplain : ∀ a ∈ rp.reached pre, co.dbHandlers a.handlerKey = none := fun a ha =>
      (hpre a (mem_of_mem_reached ha)).1
    have hsame := dispatchAll_eq hregistry rangeIdx hplain w
    obtain ⟨hok, hworld⟩ := dispatchAll_reached rp rangeIdx pre w
    have hreached : rp.reached pre = pre := reached_of_goesOn fun a ha => (hpre a ha).2
    have hrun := Proc.eq_ok_of_fst (hok.mpr fun a ha => (hpre a ha).2)
    rw [hworld, hreached, ← hsame] at hrun
    rw [Proc.forEach_append, Proc.bind_of_ok hrun]
  let D := w.dispatched ++ (pre ++ [e]).map fun a => (rangeIdx, a)
  have hcall : Proc.Triple (fun w' : World V => w' = w.noteAll rangeIdx pre)
      (co.dispatch rangeIdx e) (fun _ w' => D <+: w'.dispatched) fun w' => D <+: w'.dispatched := by
    refine Proc.Triple.bind (Q := fun _ w' => D <+: w'.dispatched) ?_ fun _ =>
      co.callHandler_triple e fun _ _ _ hw => hw
    apply Proc.Triple.modify
    rintro w' rfl
    simp [D, World.noteAll]
  have hrest : Proc.Triple (fun w' : World V => D <+: w'.dispatched)
      (Proc.forEach (co.dispatch rangeIdx) post) (fun _ w' => D <+: w'.dispatched)
      fun w' => D <+: w'.dispatched := by
    refine Proc.Triple.forEach (I := fun _ (w' : World V) => D <+: w'.dispatched) fun _ a _ _ => ?_
    refine Proc.Triple.bind (Q := fun _ w' => D <+: w'.dispatched) ?_ fun _ =>
      co.callHandler_triple a fun _ _ _ hw => hw
    apply Proc.Triple.modify
    intro w' hw
    exact hw.trans (List.prefix_append _ _)
  have hbegins : D <+: (co.processRange env chainId plans rangeIdx w).2.dispatched := by
    rw [processRange_handsOut hfetch, hes, hsplit, Proc.forEach_cons]
    exact (hcall.bind fun _ => hrest).snd rfl
  obtain ⟨later, hlater⟩ := hbegins
  rw [← hlater]
  unfold invocations
  apply List.mem_filterMap.mpr
  refine ⟨(rangeIdx, e), by simp [D], ?_⟩
  unfold BackfillCoordinator.invokes
  rw [if_pos (Option.isSome_iff_ne_none.mpr hdb)]

variable (rp env) in
theorem processHead_outcome (i : ℕ) (number : UInt64) (w : World V) :
    let es := RealtimeProcessor.sortByLogIndex (rp.fetchBlock i number)
    (rp.processHead env i number w).2.dispatched =
        w.dispatched ++ (rp.reached es).map (fun e => (i, e)) ∧
      ((rp.processHead env i number w).1 = .ok () ↔ (∀ e ∈ es, rp.goesOn e = true) ∧
        ∃ n w', rp.writeBuffer.flushAll env (w.noteAll i es) = (.ok n, w')) := by
  intro es
  obtain ⟨hok, hworld⟩ := dispatchAll_reached rp i es w
  let D := w.dispatched ++ (rp.reached es).map fun e => (i, e)
  have hflush := flushAll_dispatched rp.writeBuffer env D
  have hloop : Proc.Triple (fun w' => w' = w) (Proc.forEach (rp.dispatch i) es)
      (fun _ w' => w'.dispatched = D) fun w' => w'.dispatched = D := by
    rintro w' rfl
    have hdone : (Proc.forEach (rp.dispatch i) es w').2.dispatched = D := by
      rw [hworld]
      rfl
    rcases hrun : Proc.forEach (rp.dispatch i) es w' with ⟨a | e | _, w''⟩ <;>
      rw [hrun] at hdone <;> exact hdone
  have hhead : Proc.Triple (fun w' => w' = w) (rp.processHead env i number)
      (fun _ w' => w'.dispatched = D) fun w' => w'.dispatched = D :=
    hloop.bind fun _ => hflush.bind fun _ => Proc.Triple.pure fun _ hw => hw
  refine ⟨hhead.snd rfl, ?_⟩
  constructor
  · intro h
    obtain ⟨_, w₁, hdispatch, h⟩ := Proc.bind_ok_iff.mp (Proc.eq_ok_of_fst h)
    have hall := hok.mp (congrArg Prod.fst hdispatch)
    have hw₁ : w₁ = w.noteAll i es := by
      rw [← reached_of_goesOn hall, ← hworld, hdispatch]
    obtain ⟨n, w₂, hn, -⟩ := Proc.bind_ok_iff.mp h
    rw [hw₁] at hn
    exact ⟨hall, n, w₂, Proc.mapErr_ok_iff.mp hn⟩
  · rintro ⟨hall, n, w₂, hn⟩
    have hdispatch := Proc.eq_ok_of_fst (hok.mpr hall)
    rw [hworld, reached_of_goesOn hall] at hdispatch
    have hrun : rp.processHead env i number w = (.ok (), w₂) :=
      Proc.bind_ok_iff.mpr ⟨(), _, hdispatch, Proc.bind_ok_iff.mpr
        ⟨n, w₂, Proc.mapErr_ok_iff.mpr hn, rfl⟩⟩
    rw [hrun]

variable (env) in
theorem handleHead_normal {block : Block} {s : RealtimeState V} {detector : ReorgDetector}
    (h : ReorgDetector.processBlock (rp.clients s.heads.length) s.detector rp.chainId block =
      (.ok .normal, detector)) :
    (rp.handleHead env (.ok block) s).1 =
        (rp.processHead env s.heads.length block.number s.world).1 ∧
      (rp.handleHead env (.ok block) s).2.world =
        (rp.processHead env s.heads.length block.number s.world).2 := by
  have hdecide : rp.decideHead block s =
      (.ok .normal, { s with detector, heads := s.heads ++ [(block, .normal)] }) := by
    unfold RealtimeProcessor.decideHead
    rw [h]
  have hhead : rp.handleHead env (.ok block) s =
      RealtimeState.onWorld (rp.follow env s.heads.length block .normal)
        { s with detector, heads := s.heads ++ [(block, .normal)] } := by
    change Proc.bind (rp.decideHead block) _ s = _
    exact Proc.bind_of_ok hdecide
  rw [hhead]
  exact ⟨rfl, rfl⟩

/-- The head invokes the handlers that the backfill invokes for the range of its block, with the
same events in the same order, and fails when the backfill fails to fetch the range. -/
def Agrees (co : BackfillCoordinator V) (rp : RealtimeProcessor) (env : Env V) (chainId : UInt64)
    (plans : List BackfillPlan) (rangeIdx : ℕ) (block : Block) (w : World V)
    (s : RealtimeState V) : Prop :=
  let back := co.processRange env chainId plans rangeIdx w
  let live := rp.handleHead env (.ok block) s
  invocations co.invokes w.dispatched back.2.dispatched =
      invocations rp.invokes s.world.dispatched live.2.world.dispatched ∧
    ∀ e, co.fetchAll chainId plans rangeIdx = .error e → live.1 ≠ .ok ()

/-- A worker fails to fetch the block of the i-th head. -/
def RealtimeProcessor.WorkerFails (rp : RealtimeProcessor) (i : ℕ) (number : UInt64) : Prop :=
  ∃ worker ∈ rp.workers, ∃ e, worker i ⟨number, number⟩ = .error e

omit [DecidableEq V] in
theorem workerFails_iff {number : UInt64} (hsetup : SameSetup co rp chainId plans) (i : ℕ) :
    rp.WorkerFails i number ↔
      ∃ worker ∈ planWorkers co chainId plans, ∃ e, worker ⟨number, number⟩ = .error e := by
  unfold RealtimeProcessor.WorkerFails
  rw [hsetup.workers]
  simp only [List.mem_map, exists_exists_and_eq_and]
  rfl

theorem invokes_eq_none {e : DecodedEvent} :
    rp.invokes e = none ↔ rp.registry e.handlerKey = none := by
  unfold RealtimeProcessor.invokes
  simp

/-- On a block that both pipelines fetch they agree if and only if no event that the realtime loop
reaches has an `on_db` handler.  On a block that a worker fails to fetch they agree only when no
event of the other workers has a handler and the flush fails for a reason of its own. -/
theorem agrees_iff {block : Block} {w : World V} {s : RealtimeState V} {detector : ReorgDetector}
    (hsetup : SameSetup co rp chainId plans)
    (hrange : ∀ p ∈ plans, p.ranges[rangeIdx]? = some ⟨block.number, block.number⟩)
    (hblock : OfBlock rp s.heads.length block.number)
    (hnormal : ReorgDetector.processBlock (rp.clients s.heads.length) s.detector rp.chainId block =
      (.ok .normal, detector)) :
    let i := s.heads.length
    let es := RealtimeProcessor.sortByLogIndex (rp.fetchBlock i block.number)
    Agrees co rp env chainId plans rangeIdx block w s ↔
      (¬rp.WorkerFails i block.number ∧ ∀ e ∈ rp.reached es, co.dbHandlers e.handlerKey = none) ∨
      (rp.WorkerFails i block.number ∧ (∀ e ∈ es, rp.registry e.handlerKey = none) ∧
        ¬∃ n w', rp.writeBuffer.flushAll env (s.world.noteAll i es) = (.ok n, w')) := by
  intro i es
  obtain ⟨hended, hworld⟩ := handleHead_normal env hnormal
  obtain ⟨hdone, hok⟩ := processHead_outcome rp env i block.number s.world
  have hlive : invocations rp.invokes s.world.dispatched
      (rp.handleHead env (.ok block) s).2.world.dispatched =
        (rp.reached es).filterMap rp.invokes := by
    rw [hworld, hdone, invocations_append]
  unfold Agrees
  dsimp only
  rw [hlive, hended]
  rcases fetchAll_single co hrange with ⟨hall, hfetch⟩ | ⟨hfail, err, hfetch⟩
  · have hnofail : ¬rp.WorkerFails i block.number := by
      rw [workerFails_iff hsetup]
      rintro ⟨worker, hworker, e, he⟩
      obtain ⟨es', hes'⟩ := hall worker hworker
      rw [he] at hes'
      cases hes'
    rw [← fetchBlock_eq hsetup i] at hfetch
    have hsort : (rp.fetchBlock i block.number).insertionSort DecodedEvent.le = es :=
      insertionSort_le_eq fun e he => blockNumber_of_mem_fetchBlock hblock he
    constructor
    · rintro ⟨hsame, -⟩
      refine .inl ⟨hnofail, fun e he => ?_⟩
      by_contra hdb
      obtain ⟨pre, a, post, hes, ha, hpre⟩ := exists_first_onDb ⟨e, he, hdb⟩
      have hmem := processRange_calls_onDb env hsetup.registry hfetch
        (hsort.trans hes) ha hpre w
      rw [hsame] at hmem
      obtain ⟨b, -, hb⟩ := List.mem_filterMap.mp hmem
      unfold RealtimeProcessor.invokes at hb
      split_ifs at hb
      cases hb
    · rintro (⟨-, hdb⟩ | ⟨hfails, -⟩)
      · refine ⟨?_, fun e he => by rw [hfetch] at he; cases he⟩
        rw [processRange_handsOut hfetch, hsort, dispatchAll_eq hsetup.registry rangeIdx hdb,
          (dispatchAll_reached rp rangeIdx es w).2]
        refine (invocations_append _ _ _ _).trans (List.filterMap_congr fun e he => ?_)
        exact invokes_eq hsetup.registry (hdb e he)
      · exact absurd hfails hnofail
  · have hfails : rp.WorkerFails i block.number := (workerFails_iff hsetup i).mpr hfail
    have hback : co.processRange env chainId plans rangeIdx w = (.err err, w) := by
      change Proc.bind (Proc.ofExcept (co.fetchAll chainId plans rangeIdx)) _ w = _
      rw [hfetch]
      rfl
    have hnone : invocations co.invokes w.dispatched w.dispatched = [] := by
      unfold invocations
      simp
    rw [hback]
    dsimp only
    rw [hnone]
    constructor
    · rintro ⟨hnil, hstop⟩
      have hreached := List.filterMap_eq_nil_iff.mp hnil.symm
      have hgo := goesOn_of_reached hreached
      rw [reached_of_goesOn hgo] at hreached
      refine .inr ⟨hfails, fun e he => invokes_eq_none.mp (hreached e he), fun hflush => ?_⟩
      exact hstop err hfetch (hok.mpr ⟨hgo, hflush⟩)
    · rintro (⟨hnofail, -⟩ | ⟨-, hnil, hflush⟩)
      · exact absurd hfails hnofail
      · refine ⟨?_, fun _ _ h => hflush (hok.mp h).2⟩
        refine (List.filterMap_eq_nil_iff.mpr fun e he => ?_).symm
        exact invokes_eq_none.mpr (hnil e (mem_of_mem_reached he))

/-- The plan of contract A that consists of block 5. -/
def planOfBlock : BackfillPlan := ⟨"A", 1, [⟨5, 5⟩], 1⟩

/-- A coordinator for contract A on chain 1. -/
def workerCoordinator (fetchRange : FetchRange) (registry : String → Option LegacyHandler)
    (dbHandlers : String → Option (EventHandlerFn String)) : BackfillCoordinator String where
  workers _ := some fetchRange
  registry := registry
  dbHandlers := dbHandlers
  writeBuffer := WriteBuffer.new ⟨[]⟩
  chainContracts _ := [⟨"A", 5⟩]
  chainChunkSizes _ := none

/-- The processor over the same worker and the same registry. -/
def workerProcessor (fetchRange : FetchRange) (registry : String → Option LegacyHandler) :
    RealtimeProcessor where
  workers := [fun _ => fetchRange]
  clients _ _ := none
  reorgHandler := ⟨[]⟩
  registry := registry
  writeBuffer := WriteBuffer.new ⟨[]⟩
  chainId := 1

/-- A worker that finds one event of block 5. -/
def transferOfBlock : FetchRange := fun _ => .ok [BackfillCoordinator.transferAt "A" 5 0]

/-- A handler registered with `on` is called by both. -/
theorem agrees_iff_on :
    let registry : String → Option LegacyHandler := fun _ => some fun _ => .ok (.ok ())
    Agrees (workerCoordinator transferOfBlock registry fun _ => none)
      (workerProcessor transferOfBlock registry) (plainEnv ⟨[]⟩) 1 [planOfBlock] 0
      (RealtimeProcessor.blockAt 5 5 4) (World.fresh String) RealtimeProcessor.freshState := by
  intro registry
  have hblock : OfBlock (workerProcessor transferOfBlock registry) 0 5 := by
    intro worker hworker es hes e he
    rw [List.mem_singleton.mp hworker] at hes
    cases hes
    rw [List.mem_singleton.mp he]
    rfl
  refine (agrees_iff ⟨rfl, rfl⟩ ?_ hblock rfl).mpr (.inl ⟨?_, fun _ _ => rfl⟩)
  · intro p hp
    rw [List.mem_singleton.mp hp]
    rfl
  · rintro ⟨worker, hworker, e, he⟩
    rw [List.mem_singleton.mp hworker] at he
    cases he

/-- A handler registered with `on_db` is called by the backfill and never by the realtime loop; a
worker that fails ends the backfill, and the realtime loop takes the block as processed. -/
theorem not_agrees_onDb :
    let onDb : String → Option (EventHandlerFn String) := fun _ =>
      some (insertHandler (WriteBuffer.new ⟨[]⟩) fun _ => [])
    let failing : FetchRange := fun _ => .error (.chainNotFound 1)
    ¬Agrees (workerCoordinator transferOfBlock (fun _ => none) onDb)
        (workerProcessor transferOfBlock fun _ => none) (plainEnv ⟨[]⟩) 1 [planOfBlock] 0
        (RealtimeProcessor.blockAt 5 5 4) (World.fresh String) RealtimeProcessor.freshState ∧
      ¬Agrees (workerCoordinator failing (fun _ => none) fun _ => none)
        (workerProcessor failing fun _ => none) (plainEnv ⟨[]⟩) 1 [planOfBlock] 0
        (RealtimeProcessor.blockAt 5 5 4) (World.fresh String) RealtimeProcessor.freshState := by
  intro onDb failing
  constructor
  · intro h
    have hlengths := congrArg List.length h.1
    revert hlengths
    decide +kernel
  · intro h
    exact h.2 (.chainNotFound 1) rfl (by decide +kernel)

end Agreement

end ForgeIndex
