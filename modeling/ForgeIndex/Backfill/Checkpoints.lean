import ForgeIndex.Backfill.NoLoss
import ForgeIndex.Lib.Trace

/-!
# Checkpoints over many runs

The checkpoints as they are after each `put_checkpoint`, written down beside the runs.  A run whose
first ranges end at or above the stored checkpoints never takes one back.
-/

namespace ForgeIndex

variable {V : Type}

/-- `ponder_sync.checkpoints`. -/
abbrev Checkpoints := UInt64 × String → Option Int64

namespace Checkpoints

/-- No checkpoint is lost or taken back. -/
def Le (c c' : Checkpoints) : Prop :=
  ∀ key k, c key = some k → ∃ k', c' key = some k' ∧ k.toUInt64 ≤ k'.toUInt64

theorem Le.refl (c : Checkpoints) : c.Le c := fun _ k h => ⟨k, h, UInt64.le_refl _⟩

theorem Le.trans {c c' c'' : Checkpoints} (h : c.Le c') (h' : c'.Le c'') : c.Le c'' := by
  intro key k hk
  obtain ⟨k', hk', hle⟩ := h key k hk
  obtain ⟨k'', hk'', hle'⟩ := h' key k' hk'
  exact ⟨k'', hk'', UInt64.le_trans hle hle'⟩

/-- The checkpoints that were seen only grow, up to `c`. -/
def Grown (c : Checkpoints) (seen : List Checkpoints) : Prop :=
  seen.Pairwise Le ∧ ∀ c' ∈ seen, c'.Le c

theorem Grown.snap {c : Checkpoints} {seen : List Checkpoints} (h : c.Grown seen) :
    c.Grown (seen ++ [c]) := by
  constructor
  · rw [List.pairwise_append]
    refine ⟨h.1, List.pairwise_singleton _ _, fun a ha b hb => ?_⟩
    rw [List.mem_singleton.mp hb]
    exact h.2 a ha
  · intro a ha
    rcases List.mem_append.mp ha with ha | ha
    · exact h.2 a ha
    · rw [List.mem_singleton.mp ha]
      exact Le.refl c

theorem Grown.of_le {c c' : Checkpoints} {seen : List Checkpoints} (h : c.Grown seen)
    (hle : c.Le c') : c'.Grown seen := ⟨h.1, fun a ha => (h.2 a ha).trans hle⟩

/-- The checkpoints are at or below the ends of the i-th ranges. -/
def Behind (chainId : UInt64) (plans : List BackfillPlan) (i : ℕ) (c : Checkpoints) : Prop :=
  ∀ p ∈ plans, ∀ r, p.ranges[i]? = some r → ∀ k, c (chainId, p.contractName) = some k →
    k.toUInt64 ≤ r.toBlock + 1

/-- Plans of one contract name have the same ranges. -/
def Agree (plans : List BackfillPlan) : Prop :=
  ∀ p ∈ plans, ∀ q ∈ plans, p.contractName = q.contractName → p.ranges = q.ranges

theorem Behind.put {chainId : UInt64} {plans : List BackfillPlan} {i : ℕ} {c : Checkpoints}
    (h : c.Behind chainId plans i) (hagree : Agree plans) {p : BackfillPlan} (hp : p ∈ plans)
    {r : BlockRange} (hr : p.ranges[i]? = some r) :
    c.Le (Function.update c (chainId, p.contractName) (some (r.toBlock + 1).toInt64)) ∧
      Behind chainId plans i
        (Function.update c (chainId, p.contractName) (some (r.toBlock + 1).toInt64)) := by
  constructor
  · intro key k hk
    by_cases hkey : key = (chainId, p.contractName)
    · subst hkey
      refine ⟨(r.toBlock + 1).toInt64, Function.update_self _ _ _, ?_⟩
      rw [UInt64.toUInt64_toInt64]
      exact h p hp r hr k hk
    · refine ⟨k, ?_, UInt64.le_refl _⟩
      rw [Function.update_of_ne hkey]
      exact hk
  · intro q hq s hs k hk
    by_cases hname : q.contractName = p.contractName
    · rw [hname, Function.update_self] at hk
      rw [hagree q hq p hp hname, hr] at hs
      cases hk
      cases hs
      rw [UInt64.toUInt64_toInt64]
      exact UInt64.le_refl _
    · have hkey : (chainId, q.contractName) ≠ (chainId, p.contractName) :=
        fun hc => hname (congrArg Prod.snd hc)
      rw [Function.update_of_ne hkey] at hk
      exact h q hq s hs k hk

end Checkpoints

open Checkpoints

theorem Tiles.toBlock_lt {lo hi : ℕ} {rs : List BlockRange} (h : Tiles lo hi rs) {i : ℕ}
    {r s : BlockRange} (hr : rs[i]? = some r) (hs : rs[i + 1]? = some s) :
    r.toBlock.toNat < s.toBlock.toNat := by
  induction rs generalizing lo i with
  | nil => simp at hr
  | cons q rs ih =>
    obtain ⟨-, -, -, -, hrest⟩ := h
    rw [List.getElem?_cons_succ] at hs
    cases i with
    | zero =>
      rw [List.getElem?_cons_zero] at hr
      cases hr
      exact (hrest.of_getElem? hs).1
    | succ i =>
      rw [List.getElem?_cons_succ] at hr
      exact ih hrest hr hs

theorem plan_first {config : ContractConfig} {chainId current : UInt64} {checkpoint : Option UInt64}
    {chunk : UInt64} {p : BackfillPlan} (h : plan config chainId current checkpoint chunk = .ok p)
    {r : BlockRange} (hr : p.ranges[0]? = some r) :
    checkpoint.getD config.startBlock ≤ current ∧
      r.toBlock.toNat + 1 = min ((checkpoint.getD config.startBlock).toNat + chunk.toNat)
        (current.toNat + 1) := by
  obtain ⟨-, ⟨-, hnil, -⟩ | ⟨hle, hloop, -⟩⟩ := plan_cases h
  · rw [hnil] at hr
    simp at hr
  · rcases planLoop_succ_ok hloop with ⟨hlt, -⟩ | ⟨q, rest, hrest, -, -, hto, -⟩
    · exact absurd hle (UInt64.not_le.mpr hlt)
    · rw [hrest, List.getElem?_cons_zero] at hr
      cases hr
      exact ⟨hle, hto⟩

theorem plan_ranges_eq {config config' : ContractConfig} {chainId chainId' current : UInt64}
    {checkpoint checkpoint' : Option UInt64} {chunk : UInt64} {p q : BackfillPlan}
    (hp : plan config chainId current checkpoint chunk = .ok p)
    (hq : plan config' chainId' current checkpoint' chunk = .ok q)
    (hstart : checkpoint.getD config.startBlock = checkpoint'.getD config'.startBlock) :
    p.ranges = q.ranges := by
  obtain ⟨-, ⟨hlt, hnil, -⟩ | ⟨hle, hloop, -⟩⟩ := plan_cases hp <;>
    obtain ⟨-, ⟨hlt', hnil', -⟩ | ⟨hle', hloop', -⟩⟩ := plan_cases hq
  · rw [hnil, hnil']
  · rw [hstart] at hlt
    exact absurd hle' (UInt64.not_le.mpr hlt)
  · rw [hstart] at hle
    exact absurd hle (UInt64.not_le.mpr hlt')
  · rw [hstart, hloop'] at hloop
    exact (Except.ok.inj hloop).symm

namespace BackfillCoordinator

section Seen

/-- `saveCheckpoint`, with the checkpoints after it. -/
def saveCheckpointSeen (env : Env V) (chainId : UInt64) (rangeIdx : ℕ) (p : BackfillPlan) :
    Proc (World V × List Checkpoints) SyncError Unit := do
  Proc.beside (saveCheckpoint env chainId rangeIdx p)
  Proc.snap World.checkpoints

variable [DecidableEq V]

/-- `processRange`, with the checkpoints after each that is saved. -/
def processRangeSeen (co : BackfillCoordinator V) (env : Env V) (chainId : UInt64)
    (plans : List BackfillPlan) (rangeIdx : ℕ) :
    Proc (World V × List Checkpoints) SyncError Unit := do
  let allEvents ← Proc.beside (Proc.ofExcept (co.fetchAll chainId plans rangeIdx))
  Proc.beside (Proc.forEach (co.dispatch rangeIdx) (allEvents.insertionSort DecodedEvent.le))
  let _ ← Proc.beside ((co.writeBuffer.flushAll env).mapErr SyncError.database)
  Proc.forEach (saveCheckpointSeen env chainId rangeIdx) plans
  Proc.beside (recordProgress chainId (blocksInRange plans rangeIdx)
    (UInt64.ofNat allEvents.length))

/-- `run_chain`, with the checkpoints after each that is saved. -/
def runChainSeen (co : BackfillCoordinator V) (env : Env V) (chainId currentBlock : UInt64) :
    Proc (World V × List Checkpoints) SyncError Unit :=
  if (co.chainContracts chainId).isEmpty then pure ()
  else do
    let plans ← Proc.beside (co.planAll env chainId currentBlock)
    Proc.beside (initProgress chainId plans)
    Proc.forEach (co.processRangeSeen env chainId plans) (List.range (maxRanges plans))

theorem erases_runChainSeen (co : BackfillCoordinator V) (env : Env V)
    (chainId currentBlock : UInt64) :
    Proc.Erases (co.runChainSeen env chainId currentBlock)
      (co.runChain env chainId currentBlock) := by
  unfold runChainSeen runChain
  split_ifs
  · exact Proc.erases_pure ()
  · apply (Proc.erases_beside _).bind
    intro plans
    apply (Proc.erases_beside _).bind
    intro _
    apply Proc.Erases.forEach
    intro i
    apply (Proc.erases_beside _).bind
    intro es
    apply (Proc.erases_beside _).bind
    intro _
    apply (Proc.erases_beside _).bind
    intro _
    apply Proc.Erases.bind _ fun _ => Proc.erases_beside _
    apply Proc.Erases.forEach
    intro p
    exact (Proc.erases_beside _).bind_snap _

end Seen

/-- What a round keeps: the checkpoints grow, and they are behind the ends of its ranges. -/
def Advancing (chainId : UInt64) (plans : List BackfillPlan) (i : ℕ)
    (s : World V × List Checkpoints) : Prop :=
  Behind chainId plans i s.1.checkpoints ∧ Grown s.1.checkpoints s.2

section Run

variable {co : BackfillCoordinator V} {env : Env V} {chainId : UInt64} {plans : List BackfillPlan}

theorem saveCheckpointSeen_advancing (hagree : Agree plans) {p : BackfillPlan} (hp : p ∈ plans)
    (i : ℕ) :
    Proc.Triple (Advancing chainId plans i) (saveCheckpointSeen env chainId i p)
      (fun _ => Advancing (V := V) chainId plans i) (Advancing chainId plans i) := by
  have hsave : Proc.Triple (Advancing chainId plans i)
      (Proc.beside (saveCheckpoint env chainId i p))
      (fun _ => Advancing (V := V) chainId plans i) (Advancing chainId plans i) := by
    refine Proc.Triple.beside_each
      (P := fun w seen => Advancing (V := V) chainId plans i (w, seen))
      (Q := fun _ w seen => Advancing (V := V) chainId plans i (w, seen))
      (E := fun w seen => Advancing (V := V) chainId plans i (w, seen)) fun seen => ?_
    apply saveCheckpoint_triple
    · exact fun _ hw => hw
    · intro w r hr hw
      have hput := Behind.put hw.1 hagree hp hr
      exact ⟨hput.2, Grown.of_le hw.2 hput.1⟩
  exact hsave.bind fun _ => Proc.Triple.modify fun s hs => ⟨hs.1, hs.2.snap⟩

/-- The process does not touch the checkpoints. -/
def LeavesCheckpoints {α : Type} (m : Proc (World V) SyncError α) : Prop :=
  ∀ c : Checkpoints, Proc.Triple (fun w => w.checkpoints = c) m (fun _ w => w.checkpoints = c)
    fun w => w.checkpoints = c

theorem LeavesCheckpoints.advancing {α : Type} {m : Proc (World V) SyncError α}
    (h : LeavesCheckpoints m) (i : ℕ) :
    Proc.Triple (Advancing chainId plans i) (Proc.beside m)
      (fun _ => Advancing (V := V) chainId plans i) (Advancing chainId plans i) :=
  Proc.Triple.beside_of_frame (g := World.checkpoints) h
    fun c seen => Behind chainId plans i c ∧ Grown c seen

theorem leavesCheckpoints_initProgress :
    LeavesCheckpoints (V := V) (initProgress chainId plans) := by
  intro c
  unfold initProgress
  dsimp only
  split_ifs
  · exact Proc.Triple.stop fun _ hw => hw
  · exact Proc.Triple.modify fun _ hw => hw

theorem leavesCheckpoints_dispatchAll (i : ℕ) (es : List DecodedEvent) :
    LeavesCheckpoints (Proc.forEach (co.dispatch i) es) :=
  leaves_dispatchAll (g := World.checkpoints) (fun _ _ _ _ => rfl) co i es

/-- The block from which planning starts a contract, if the n-th statement reads its checkpoint. -/
def startAt (env : Env V) (w : World V) (n : ℕ) (chainId : UInt64) (c : ContractConfig) : UInt64 :=
  (checkpointAt env w n chainId c.name).getD c.startBlock

/-- The first range of each contract ends right before its stored checkpoint or above, and contracts
that share a name start from the same block. -/
def KeepsUp (co : BackfillCoordinator V) (env : Env V) (chainId currentBlock : UInt64)
    (w : World V) : Prop :=
  ∀ i c, (co.chainContracts chainId)[i]? = some c →
    (∀ k, w.checkpoints (chainId, c.name) = some k →
      startAt env w (w.clock + i) chainId c ≤ currentBlock →
        k.toUInt64.toNat ≤ min ((startAt env w (w.clock + i) chainId c).toNat +
          ((co.chainChunkSizes chainId).getD defaultChunkSize).toNat) (currentBlock.toNat + 1)) ∧
    ∀ j c', (co.chainContracts chainId)[j]? = some c' → c'.name = c.name →
      startAt env w (w.clock + j) chainId c' = startAt env w (w.clock + i) chainId c

/-- A run keeps up if every read of a stored checkpoint is executed and no two contracts share a
name. -/
theorem keepsUp_of_reads {currentBlock : UInt64} {w : World V}
    (hreads : ∀ i c, (co.chainContracts chainId)[i]? = some c →
      w.checkpoints (chainId, c.name) = none ∨ env.fate (w.clock + i) = .executed)
    (hdistinct : ((co.chainContracts chainId).map ContractConfig.name).Nodup) :
    co.KeepsUp env chainId currentBlock w := by
  intro i c hc
  constructor
  · intro k hk hle
    have hread : env.fate (w.clock + i) = .executed := by
      rcases hreads i c hc with hnone | hread
      · rw [hk] at hnone
        cases hnone
      · exact hread
    have hstart : startAt env w (w.clock + i) chainId c = k.toUInt64 := by
      simp [startAt, checkpointAt, hread, hk]
    rw [hstart] at hle ⊢
    rw [UInt64.le_iff_toNat_le] at hle
    omega
  · intro j c' hc' hname
    have hi : ((co.chainContracts chainId).map ContractConfig.name)[i]? = some c.name := by
      rw [List.getElem?_map, hc]
      rfl
    have hj : ((co.chainContracts chainId).map ContractConfig.name)[j]? = some c.name := by
      rw [List.getElem?_map, hc', ← hname]
      rfl
    have hji : j = i := by
      have hlt := (List.getElem?_eq_some_iff.mp hj).1
      exact (List.getElem?_inj hlt hdistinct).mp (hj.trans hi.symm)
    subst hji
    rw [hc] at hc'
    cases hc'
    rfl

theorem KeepsUp.behind {currentBlock : UInt64} {w : World V}
    (h : co.KeepsUp env chainId currentBlock w)
    (hplans : co.plansFrom env chainId currentBlock w w.clock (co.chainContracts chainId) =
      .ok plans) :
    Behind chainId plans 0 w.checkpoints ∧ Agree plans := by
  constructor
  · intro p hp r hr k hk
    obtain ⟨i, hi⟩ := List.mem_iff_getElem?.mp hp
    obtain ⟨c, hc, hplan⟩ := (getElem?_plansFrom hplans).mp hi
    obtain ⟨hname, htiles⟩ := tiles_of_plan hplan
    obtain ⟨hle, hto⟩ := plan_first hplan hr
    rw [hname] at hk
    have hk' := (h i c hc).1 k hk hle
    have hsucc := (htiles.of_getElem? hr).2.2.1
    rw [UInt64.le_iff_toNat_le, hsucc, hto]
    exact hk'
  · intro p hp q hq hname
    obtain ⟨i, hi⟩ := List.mem_iff_getElem?.mp hp
    obtain ⟨j, hj⟩ := List.mem_iff_getElem?.mp hq
    obtain ⟨c, hc, hplan⟩ := (getElem?_plansFrom hplans).mp hi
    obtain ⟨c', hc', hplan'⟩ := (getElem?_plansFrom hplans).mp hj
    rw [(tiles_of_plan hplan).1, (tiles_of_plan hplan').1] at hname
    exact plan_ranges_eq hplan hplan' ((h i c hc).2 j c' hc' hname.symm).symm

theorem behind_succ {currentBlock : UInt64} {w : World V} {n : ℕ} {cs : List ContractConfig}
    (hplans : co.plansFrom env chainId currentBlock w n cs = .ok plans) {i : ℕ} {c : Checkpoints}
    (h : Behind chainId plans i c) : Behind chainId plans (i + 1) c := by
  intro p hp s hs k hk
  obtain ⟨contract, -, m, hplan⟩ := exists_planAt_of_mem hplans hp
  have htiles := (tiles_of_plan hplan).2
  have hlt : i < p.ranges.length := by
    have hlen := (List.getElem?_eq_some_iff.mp hs).1
    omega
  have hr : p.ranges[i]? = some p.ranges[i] := List.getElem?_eq_getElem hlt
  have hstep := htiles.toBlock_lt hr hs
  have hsucc := (htiles.of_getElem? hr).2.2.1
  have hsucc' := (htiles.of_getElem? hs).2.2.1
  have hk' := h p hp _ hr k hk
  rw [UInt64.le_iff_toNat_le] at hk' ⊢
  omega

variable [DecidableEq V]

theorem leaves_flushAll {γ : Type} {g : World V → γ}
    (hg : ∀ w buffers tables clock sent totalFlushed,
      g { w with buffers, tables, clock, sent, totalFlushed } = g w) :
    Proc.Leaves g ((co.writeBuffer.flushAll env).mapErr SyncError.database) := by
  intro c
  have hflush := WriteBuffer.flushAll_frame co.writeBuffer env (I := fun w => g w = c)
    fun w _ _ _ _ _ hw => (hg w _ _ _ _ _).trans hw
  exact (hflush.conseq (fun _ hw => hw) (fun _ _ hw => hw.1) fun _ hw => hw).mapErr

theorem leavesCheckpoints_flushAll :
    LeavesCheckpoints ((co.writeBuffer.flushAll env).mapErr SyncError.database) :=
  leaves_flushAll (g := World.checkpoints) fun _ _ _ _ _ _ => rfl

theorem processRangeSeen_advancing (hagree : Agree plans) (i : ℕ) :
    Proc.Triple (Advancing chainId plans i) (co.processRangeSeen env chainId plans i)
      (fun _ => Advancing (V := V) chainId plans i) (Advancing chainId plans i) := by
  have hfetch : LeavesCheckpoints (V := V) (Proc.ofExcept (co.fetchAll chainId plans i)) :=
    fun _ => Proc.Triple.ofExcept (fun _ _ _ hw => hw) fun _ hw => hw
  have hrecord (blocks events : UInt64) :
      LeavesCheckpoints (V := V) (recordProgress chainId blocks events) :=
    fun _ => Proc.Triple.modify fun _ hw => hw
  have hsave : Proc.Triple (Advancing chainId plans i)
      (Proc.forEach (saveCheckpointSeen env chainId i) plans)
      (fun _ => Advancing (V := V) chainId plans i) (Advancing chainId plans i) :=
    Proc.Triple.forEach (I := fun _ => Advancing (V := V) chainId plans i) fun pre p post hsplit =>
      saveCheckpointSeen_advancing hagree (by simp [hsplit]) i
  apply (hfetch.advancing i).bind
  intro es
  apply ((leavesCheckpoints_dispatchAll i (es.insertionSort DecodedEvent.le)).advancing i).bind
  intro _
  apply (leavesCheckpoints_flushAll.advancing i).bind
  intro _
  apply hsave.bind
  intro _
  exact (hrecord _ _).advancing i

theorem processRangesSeen_grown {currentBlock : UInt64} {w : World V}
    (hplans : co.plansFrom env chainId currentBlock w w.clock (co.chainContracts chainId) =
      .ok plans) (hagree : Agree plans) :
    Proc.Triple (Advancing chainId plans 0)
      (Proc.forEach (co.processRangeSeen env chainId plans) (List.range (maxRanges plans)))
      (fun _ s => Grown s.1.checkpoints s.2) fun s => Grown s.1.checkpoints s.2 := by
  have hrounds : Proc.Triple (Advancing chainId plans ([] : List ℕ).length)
      (Proc.forEach (co.processRangeSeen env chainId plans) (List.range (maxRanges plans)))
      (fun _ => Advancing chainId plans (List.range (maxRanges plans)).length)
      fun s => Grown s.1.checkpoints s.2 := by
    refine Proc.Triple.forEach (I := fun pre s => Advancing (V := V) chainId plans pre.length s)
      fun pre i post hsplit => ?_
    have hpre : pre.length = i := by rw [eq_range_of_range_eq hsplit, List.length_range]
    rw [List.length_append, List.length_singleton, hpre]
    exact (processRangeSeen_advancing hagree i).conseq (fun _ h => h)
      (fun _ s h => ⟨behind_succ hplans h.1, h.2⟩) fun _ h => h.2
  exact hrounds.conseq (fun _ h => h) (fun _ _ h => h.2) fun _ h => h

/-- A run that keeps up saves no checkpoint below the one before it, however it ends. -/
theorem runChainSeen_grown (currentBlock : UInt64) {w : World V} {seen : List Checkpoints}
    (hkeeps : co.KeepsUp env chainId currentBlock w) (hseen : Grown w.checkpoints seen) :
    let s := (co.runChainSeen env chainId currentBlock (w, seen)).2
    Grown s.1.checkpoints s.2 := by
  have hgrown : Proc.Triple (fun s => s = (w, seen)) (co.runChainSeen env chainId currentBlock)
      (fun _ s => Grown s.1.checkpoints s.2) fun s => Grown s.1.checkpoints s.2 := by
    unfold runChainSeen
    split_ifs
    · apply Proc.Triple.pure
      rintro _ rfl
      exact hseen
    · refine Proc.Triple.bind (Q := fun plans s =>
        (co.plansFrom env chainId currentBlock w w.clock (co.chainContracts chainId) = .ok plans ∧
          ∃ m, s.1 = { w with clock := m }) ∧ s.2 = seen) ?_ fun plans => ?_
      · apply ((co.planAll_triple env chainId currentBlock w).beside (· = seen)).conseq
        · rintro _ rfl
          exact ⟨rfl, rfl⟩
        · exact fun _ _ h => h
        · rintro s ⟨⟨m, hw⟩, hs⟩
          rw [hs, hw]
          exact hseen
      · rintro s ⟨⟨hplans, m, hw⟩, hs⟩
        obtain ⟨hbehind, hagree⟩ := hkeeps.behind hplans
        have hinit : Proc.Triple (Advancing chainId plans 0)
            (Proc.beside (initProgress chainId plans))
            (fun _ => Advancing (V := V) chainId plans 0) (Advancing chainId plans 0) :=
          leavesCheckpoints_initProgress.advancing 0
        apply ((hinit.conseq (fun _ h => h) (fun _ _ h => h) fun _ h => h.2).bind
          fun _ => processRangesSeen_grown hplans hagree) s
        rw [show s = ({ w with clock := m }, seen) from Prod.ext hw hs]
        exact ⟨hbehind, hseen⟩
  exact hgrown.snd rfl

end Run

section Runs

variable [DecidableEq V]

/-- What is reached by runs of `run_chain`, each with its own coordinator, chain and current block
and each ending in whatever way, with restarts of the process at any time: the world, and the
checkpoints as they were after each that was saved.  `P` is what is asked of a run and the world it
starts in. -/
inductive Runs (env : Env V) (P : BackfillCoordinator V → UInt64 → UInt64 → World V → Prop)
    (w₀ : World V) : World V × List Checkpoints → Prop
  | start : Runs env P w₀ (w₀, [w₀.checkpoints])
  | run {s : World V × List Checkpoints} (co : BackfillCoordinator V)
      (chainId currentBlock : UInt64) (h : Runs env P w₀ s) (hP : P co chainId currentBlock s.1) :
      Runs env P w₀ (co.runChainSeen env chainId currentBlock s).2
  | restart {s : World V × List Checkpoints} (h : Runs env P w₀ s) :
      Runs env P w₀ (s.1.restart, s.2)

theorem Runs.grown {env : Env V} {w₀ : World V} {s : World V × List Checkpoints}
    (h : Runs env (fun co => co.KeepsUp env) w₀ s) : Grown s.1.checkpoints s.2 := by
  induction h with
  | start =>
    refine ⟨List.pairwise_singleton _ _, fun c hc => ?_⟩
    rw [List.mem_singleton.mp hc]
    exact Le.refl _
  | run co chainId currentBlock h hkeeps ih => exact runChainSeen_grown currentBlock hkeeps ih
  | restart h ih => exact ih

/-- In any sequence of runs that all keep up, whatever else fails in them, no checkpoint is ever
below an earlier one of the same contract. -/
theorem checkpoints_grow {env : Env V} {w₀ : World V} {s : World V × List Checkpoints}
    (h : Runs env (fun co => co.KeepsUp env) w₀ s) :
    (s.2 ++ [s.1.checkpoints]).Pairwise Checkpoints.Le := h.grown.snap.1

end Runs

/-- One contract, walked in chunks of fifty blocks. -/
def chunkedCoordinator : BackfillCoordinator String :=
  listCoordinator String ⟨[]⟩ [⟨"A", 0⟩] (fun _ => []) 50

/-- A run up to block 99 and one up to block 120. -/
theorem checkpoints_grow_two_runs :
    let s := (chunkedCoordinator.runChainSeen (plainEnv ⟨[]⟩) 1 120
      (chunkedCoordinator.runChainSeen (plainEnv ⟨[]⟩) 1 99
        (World.fresh String, [fun _ => none])).2).2
    s.2.map (fun c => c (1, "A")) = [none, some 50, some 100, some 121] ∧
      (s.2 ++ [s.1.checkpoints]).Pairwise Checkpoints.Le := by
  intro s
  have hkeeps (currentBlock : UInt64) (w : World String) :
      chunkedCoordinator.KeepsUp (plainEnv ⟨[]⟩) 1 currentBlock w :=
    keepsUp_of_reads (fun _ _ _ => .inr rfl) (by decide)
  have hruns : Runs (plainEnv ⟨[]⟩) (fun co => co.KeepsUp (plainEnv ⟨[]⟩)) (World.fresh String) s :=
    (Runs.start.run chunkedCoordinator 1 99 (hkeeps 99 _)).run chunkedCoordinator 1 120
      (hkeeps 120 _)
  exact ⟨by decide +kernel, checkpoints_grow hruns⟩

/-- The fourth statement is the read of the checkpoint in the second run: refused, it sends the
contract back to its start block, and the first range puts the checkpoint back from 100 to 50. -/
theorem checkpoint_goes_back :
    ¬ ∀ (env : Env String) (w₀ : World String) (s : World String × List Checkpoints),
      Runs env (fun co chainId _ _ => co.chainChunkSizes chainId ≠ some 0) w₀ s →
        (s.2 ++ [s.1.checkpoints]).Pairwise Checkpoints.Le := by
  intro h
  let env : Env String :=
    { plainEnv ⟨[]⟩ with fate := fun n => if n = 3 then .rejected else .executed }
  let s := (chunkedCoordinator.runChainSeen env 1 60
    (chunkedCoordinator.runChainSeen env 1 99 (World.fresh String, [fun _ => none])).2).2
  have hruns : Runs env (fun co chainId _ _ => co.chainChunkSizes chainId ≠ some 0)
      (World.fresh String) s :=
    (Runs.start.run chunkedCoordinator 1 99 (by decide)).run chunkedCoordinator 1 60 (by decide)
  have hgrow := (List.pairwise_append.mp (h env (World.fresh String) s hruns)).1
  have hseen : s.2.map (fun c => c (1, "A")) = [none, some 50, some 100, some 50, some 61] := by
    decide +kernel
  have hstored : (s.2.map fun c => c (1, "A")).Pairwise fun a b =>
      ∀ k, a = some k → ∃ k', b = some k' ∧ k.toUInt64 ≤ k'.toUInt64 :=
    hgrow.map (fun c : Checkpoints => c (1, "A")) fun _ _ hle => hle (1, "A")
  rw [hseen] at hstored
  have hlast := (@List.pairwise_append _ _ [none, some 50] _).mp hstored
  obtain ⟨k, hk, hle⟩ := List.rel_of_pairwise_cons hlast.2.1 (List.mem_cons_self) 100 rfl
  cases hk
  exact absurd hle (by decide)

end BackfillCoordinator

end ForgeIndex
