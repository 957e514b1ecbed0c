import Mathlib.Data.List.Pairwise
import ForgeIndex.Backfill.Delivery

/-!
# The order across rounds

A round takes one range of each plan and sorts what it fetched.  An event waits for the round of
its own chunk, counted from the start of its contract, so contracts that start at different blocks
are interleaved by their chunks and not by the chain.
-/

namespace ForgeIndex

namespace BackfillCoordinator

variable {V : Type} {co : BackfillCoordinator V} {env : Env V} {chainId currentBlock : UInt64}
  {events : String → List DecodedEvent} {w : World V}

/-- Some handler is registered for the event. -/
def hasHandler (co : BackfillCoordinator V) (e : DecodedEvent) : Bool :=
  (co.dbHandlers e.handlerKey).isSome || (co.registry e.handlerKey).isSome

/-- The events of a part of the walk that a handler is called with, in the order of the calls. -/
def handed (co : BackfillCoordinator V) (delivered : List (ℕ × DecodedEvent)) :
    List DecodedEvent :=
  (delivered.map Prod.snd).filter co.hasHandler

/-- The block at which the k-th contract of a run starts: its checkpoint or its start block. -/
def startOf (env : Env V) (chainId : UInt64) (w : World V) (k : ℕ) (c : ContractConfig) : UInt64 :=
  (checkpointAt env w (w.clock + k) chainId c.name).getD c.startBlock

/-- The event is due, in the i-th chunk after the start of its contract. -/
def DueIn (co : BackfillCoordinator V) (env : Env V) (chainId currentBlock : UInt64)
    (events : String → List DecodedEvent) (w : World V) (i : ℕ) (e : DecodedEvent) : Prop :=
  ∃ k c, (co.chainContracts chainId)[k]? = some c ∧ e ∈ events c.name ∧
    startOf env chainId w k c ≤ e.rawLog.blockNumber ∧ e.rawLog.blockNumber ≤ currentBlock ∧
    (e.rawLog.blockNumber.toNat - (startOf env chainId w k c).toNat) /
      ((co.chainChunkSizes chainId).getD defaultChunkSize).toNat = i

/-- Events of earlier chunks stand before events of later chunks, whatever their contracts. -/
def InStep (co : BackfillCoordinator V) (env : Env V) (chainId currentBlock : UInt64)
    (events : String → List DecodedEvent) (w : World V) : Prop :=
  ∀ i e j e', co.DueIn env chainId currentBlock events w i e →
    co.DueIn env chainId currentBlock events w j e' →
    co.hasHandler e = true → co.hasHandler e' = true → i < j → e.le e'

/-- Rounds in order, and the chain's order inside a round. -/
def walkLe (d d' : ℕ × DecodedEvent) : Prop := d.1 < d'.1 ∨ d.1 = d'.1 ∧ d.2.le d'.2

theorem pairwise_walk (co : BackfillCoordinator V) (chainId : UInt64) (plans : List BackfillPlan) :
    (co.walk chainId plans).Pairwise walkLe := by
  unfold walk
  rw [List.pairwise_flatMap]
  constructor
  · intro i _
    rw [List.pairwise_map]
    exact (List.pairwise_insertionSort _ _).imp fun h => .inr ⟨rfl, h⟩
  · apply List.pairwise_lt_range.imp
    intro i j hij d hd d' hd'
    obtain ⟨e, -, rfl⟩ := List.mem_map.mp hd
    obtain ⟨e', -, rfl⟩ := List.mem_map.mp hd'
    exact .inl hij

theorem mem_walk {plans : List BackfillPlan} {i : ℕ} {e : DecodedEvent} :
    (i, e) ∈ co.walk chainId plans ↔ i < maxRanges plans ∧ e ∈ co.batch chainId plans i := by
  simp [walk]

theorem isOk_of_mem_batch {plans : List BackfillPlan} {i : ℕ} {e : DecodedEvent}
    (he : e ∈ co.batch chainId plans i) : (co.fetchAll chainId plans i).isOk = true := by
  unfold batch at he
  cases hfetch : co.fetchAll chainId plans i with
  | error err =>
    rw [hfetch] at he
    simp [Except.toOption] at he
  | ok es => rfl

theorem mem_rangeEvents_iff_dueIn {plans : List BackfillPlan}
    (hplans : co.plansFrom env chainId currentBlock w w.clock (co.chainContracts chainId) =
      .ok plans) {i : ℕ} {e : DecodedEvent} :
    e ∈ plans.flatMap (rangeEvents events i) ↔
      co.DueIn env chainId currentBlock events w i e := by
  rw [List.mem_flatMap]
  constructor
  · intro ⟨p, hp, he⟩
    obtain ⟨k, hk⟩ := List.getElem?_of_mem hp
    obtain ⟨c, hc, hplan⟩ := (getElem?_plansFrom hplans).mp hk
    obtain ⟨range, hrange, hmem, hcov⟩ := mem_rangeEvents.mp he
    obtain ⟨hlo, hhi, hdiv⟩ := (plan_covers_iff hplan i _).mp ⟨range, hrange, hcov⟩
    rw [(tiles_of_plan hplan).1] at hmem
    exact ⟨k, c, hc, hmem, hlo, hhi, hdiv⟩
  · intro ⟨k, c, hc, hmem, hlo, hhi, hdiv⟩
    have hlen : k < plans.length := by
      have hnames := congrArg List.length (plansFrom_names hplans)
      have hk := (List.getElem?_eq_some_iff.mp hc).1
      simp only [List.length_map] at hnames
      omega
    obtain ⟨c', hc', hplan⟩ :=
      (getElem?_plansFrom hplans).mp (List.getElem?_eq_getElem hlen)
    rw [hc] at hc'
    cases hc'
    obtain ⟨range, hrange, hcov⟩ := (plan_covers_iff hplan i _).mpr ⟨hlo, hhi, hdiv⟩
    refine ⟨plans[k], List.getElem_mem hlen, mem_rangeEvents.mpr ⟨range, hrange, ?_, hcov⟩⟩
    rw [(tiles_of_plan hplan).1]
    exact hmem

theorem dueIn_of_mem_walk (hexact : co.Exact chainId events) {plans : List BackfillPlan}
    (hplans : co.plansFrom env chainId currentBlock w w.clock (co.chainContracts chainId) =
      .ok plans) {d : ℕ × DecodedEvent} (hd : d ∈ co.walk chainId plans) :
    co.DueIn env chainId currentBlock events w d.1 d.2 := by
  obtain ⟨-, he⟩ := mem_walk.mp hd
  apply (mem_rangeEvents_iff_dueIn hplans).mp
  exact (batch_perm hexact hplans (isOk_of_mem_batch he)).mem_iff.mp he

theorem mem_walk_of_dueIn (hexact : co.Exact chainId events) {plans : List BackfillPlan}
    (hplans : co.plansFrom env chainId currentBlock w w.clock (co.chainContracts chainId) =
      .ok plans) (hok : ∀ i < maxRanges plans, (co.fetchAll chainId plans i).isOk = true)
    {i : ℕ} {e : DecodedEvent} (hdue : co.DueIn env chainId currentBlock events w i e) :
    (i, e) ∈ co.walk chainId plans := by
  have he := (mem_rangeEvents_iff_dueIn hplans).mpr hdue
  obtain ⟨p, hp, hep⟩ := List.mem_flatMap.mp he
  obtain ⟨range, hrange, -⟩ := mem_rangeEvents.mp hep
  have hi : i < maxRanges plans :=
    lt_of_lt_of_le (List.getElem?_eq_some_iff.mp hrange).1 (length_le_maxRanges hp)
  exact mem_walk.mpr ⟨hi, (batch_perm hexact hplans (hok i hi)).mem_iff.mpr he⟩

theorem le_of_pairwise_handed {delivered : List (ℕ × DecodedEvent)}
    (hwalk : delivered.Pairwise walkLe) (hsorted : (co.handed delivered).Pairwise DecodedEvent.le)
    {d d' : ℕ × DecodedEvent} (hd : d ∈ delivered) (hd' : d' ∈ delivered)
    (hh : co.hasHandler d.2 = true) (hh' : co.hasHandler d'.2 = true) (hlt : d.1 < d'.1) :
    d.2.le d'.2 := by
  unfold handed at hsorted
  rw [List.pairwise_filter, List.pairwise_map] at hsorted
  let R (a b : ℕ × DecodedEvent) : Prop :=
    walkLe a b ∧ (co.hasHandler a.2 = true → co.hasHandler b.2 = true → a.2.le b.2)
  have hR : delivered.Pairwise R := hwalk.and hsorted
  have hsym : delivered.Pairwise fun a b => R a b ∨ R b a := hR.imp fun h => .inl h
  have : Std.Symm fun a b => R a b ∨ R b a := ⟨fun a b h => h.symm⟩
  have hne : d ≠ d' := by
    intro h
    rw [h] at hlt
    omega
  rcases hsym.forall hd hd' hne with h | h
  · exact h.2 hh hh'
  · rcases h.1 with h | h <;> omega

theorem pairwise_handed_of_inStep {delivered : List (ℕ × DecodedEvent)}
    (hstep : co.InStep env chainId currentBlock events w) (hwalk : delivered.Pairwise walkLe)
    (hdue : ∀ d ∈ delivered, co.DueIn env chainId currentBlock events w d.1 d.2) :
    (co.handed delivered).Pairwise DecodedEvent.le := by
  unfold handed
  rw [List.pairwise_filter, List.pairwise_map]
  apply hwalk.imp_of_mem
  intro d d' hd hd' hle hh hh'
  rcases hle with hlt | ⟨-, hle⟩
  · exact hstep _ _ _ _ (hdue d hd) (hdue d' hd') hh hh' hlt
  · exact hle

variable [DecidableEq V]

/-- Whatever way a run ends, its handlers have seen the chain in order when events of earlier
chunks stand before events of later chunks; a run that returns `Ok` shows them the chain in order
in no other case. -/
theorem runChain_in_order_iff (hexact : co.Exact chainId events) (w : World V) :
    ∃ delivered,
      (co.runChain env chainId currentBlock w).2.dispatched = w.dispatched ++ delivered ∧
      (co.InStep env chainId currentBlock events w →
        (co.handed delivered).Pairwise DecodedEvent.le) ∧
      ((co.runChain env chainId currentBlock w).1 = .ok () →
        ((co.handed delivered).Pairwise DecodedEvent.le ↔
          co.InStep env chainId currentBlock events w)) := by
  have hrun := co.runChain_dispatched env chainId currentBlock w w rfl
  rcases hres : co.runChain env chainId currentBlock w with ⟨_ | err | _, w'⟩ <;> rw [hres] at hrun
  · obtain ⟨plans, hplans, hok, hdone⟩ := hrun
    have hwalk := co.pairwise_walk chainId plans
    have hsorted (hstep : co.InStep env chainId currentBlock events w) :
        (co.handed (co.walk chainId plans)).Pairwise DecodedEvent.le :=
      pairwise_handed_of_inStep hstep hwalk fun d hd => dueIn_of_mem_walk hexact hplans hd
    refine ⟨_, hdone, hsorted, fun _ => ⟨fun h i e j e' hdue hdue' hh hh' hlt => ?_, hsorted⟩⟩
    have hd := mem_walk_of_dueIn hexact hplans hok hdue
    have hd' := mem_walk_of_dueIn hexact hplans hok hdue'
    exact le_of_pairwise_handed hwalk h hd hd' hh hh' hlt
  all_goals
    have hpart : ∃ delivered, w'.dispatched = w.dispatched ++ delivered ∧
        (co.InStep env chainId currentBlock events w →
          (co.handed delivered).Pairwise DecodedEvent.le) := by
      rcases hrun with hsame | ⟨plans, done, hplans, hpre, hdone⟩
      · exact ⟨[], by rw [hsame, List.append_nil], fun _ => by simp [handed]⟩
      · refine ⟨done, hdone, fun hstep => ?_⟩
        apply pairwise_handed_of_inStep hstep
        · exact (co.pairwise_walk chainId plans).sublist hpre.sublist
        · exact fun d hd => dueIn_of_mem_walk hexact hplans (hpre.subset hd)
    obtain ⟨delivered, hdone, hsorted⟩ := hpart
    exact ⟨delivered, hdone, hsorted, fun h => by cases h⟩

omit [DecidableEq V] in
theorem inStep_of_start_eq (start : UInt64)
    (hstart : ∀ k c, (co.chainContracts chainId)[k]? = some c →
      startOf env chainId w k c = start) :
    co.InStep env chainId currentBlock events w := by
  intro i e j e' ⟨k, c, hc, _, hlo, _, hi⟩ ⟨k', c', hc', _, hlo', _, hj⟩ _ _ hlt
  rw [hstart k c hc] at hlo hi
  rw [hstart k' c' hc'] at hlo' hj
  left
  rw [UInt64.lt_iff_toNat_lt]
  rw [UInt64.le_iff_toNat_le] at hlo hlo'
  by_contra hge
  have hdiv := Nat.div_le_div_right (c := ((co.chainChunkSizes chainId).getD defaultChunkSize).toNat)
    (show e'.rawLog.blockNumber.toNat - start.toNat ≤ e.rawLog.blockNumber.toNat - start.toNat by
      omega)
  omega

/-- A coordinator for chain 1 with a handler for every event. -/
def handlingCoordinator (V : Type) (contracts : List ContractConfig)
    (events : String → List DecodedEvent) (chunkSize : UInt64) : BackfillCoordinator V :=
  { listCoordinator V ⟨[]⟩ contracts events chunkSize with
    registry := fun _ => some fun _ => .ok (.ok ()) }

omit [DecidableEq V] in
theorem exact_handlingCoordinator (contracts : List ContractConfig)
    (events : String → List DecodedEvent) (chunkSize : UInt64) :
    (handlingCoordinator V contracts events chunkSize).Exact 1 events :=
  exact_listCoordinator (V := V) ⟨[]⟩ contracts events chunkSize

/-- Two contracts with one start block and an event in each of two chunks. -/
theorem runChain_in_order_iff_same_start :
    let events := fun name => if name = "A" then [transferAt "A" 8 0, transferAt "A" 1 3]
      else [transferAt "B" 6 1]
    let co := handlingCoordinator String [⟨"A", 0⟩, ⟨"B", 0⟩] events 4
    let env := plainEnv ⟨[]⟩
    let w := World.fresh String
    ∃ delivered, (co.runChain env 1 9 w).2.dispatched = w.dispatched ++ delivered ∧
      (co.handed delivered).Pairwise DecodedEvent.le := by
  intro events co env w
  have hexact : co.Exact 1 events := exact_handlingCoordinator _ events 4
  obtain ⟨delivered, hdone, hsorted, -⟩ := runChain_in_order_iff hexact w
  refine ⟨delivered, hdone, hsorted (inStep_of_start_eq 0 fun k c hc => ?_)⟩
  have hmem : c ∈ co.chainContracts 1 := List.mem_of_getElem? hc
  have hstart : ∀ c ∈ co.chainContracts 1, c.startBlock = 0 := by decide
  show ((if env.fate (0 + k) = .executed then none else none : Option UInt64).getD
    c.startBlock) = 0
  rw [hstart c hmem, ite_self]
  rfl

/-- Contract A starts at block 0, contract B at block 100, in chunks of ten blocks: the first round
hands out the event of B at block 101 and the second one that of A at block 15. -/
theorem runChain_not_in_order :
    let events := fun name => if name = "A" then [transferAt "A" 15 0] else [transferAt "B" 101 0]
    let co := handlingCoordinator String [⟨"A", 0⟩, ⟨"B", 100⟩] events 10
    let r := co.runChain (plainEnv ⟨[]⟩) 1 105 (World.fresh String)
    co.Exact 1 events ∧ r.1 = .ok () ∧
      (r.2.dispatched.map fun d => (d.2.contractName, d.2.rawLog.blockNumber)) =
        [("B", 101), ("A", 15)] ∧
      ¬(co.handed r.2.dispatched).Pairwise DecodedEvent.le := by
  refine ⟨exact_handlingCoordinator _ _ 10, ?_, ?_, ?_⟩ <;> decide +kernel

end BackfillCoordinator

end ForgeIndex
