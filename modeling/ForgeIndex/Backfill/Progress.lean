import ForgeIndex.Backfill.Checkpoints
import ForgeIndex.Backfill.Partition
import ForgeIndex.Lib.Columns

/-!
# Backfill progress

`forge-index-sync/src/backfill/progress.rs` over a run.  The total of a chain is a sum over its
contracts; a round records the length of its longest range.
-/

namespace ForgeIndex

variable {V : Type}

namespace BackfillCoordinator

/-- The lengths of the ranges, plan by plan. -/
def lengths (plans : List BackfillPlan) : List (List ℕ) :=
  plans.map fun p => p.ranges.map fun r => r.len.toNat

theorem toNat_max (a b : UInt64) : (max a b).toNat = max a.toNat b.toNat := by
  show (if a ≤ b then b else a).toNat = _
  by_cases h : a ≤ b
  · rw [if_pos h]
    have hle := UInt64.le_iff_toNat_le.mp h
    omega
  · rw [if_neg h]
    have hlt := UInt64.lt_iff_toNat_lt.mp (UInt64.not_le.mp h)
    omega

theorem toNat_blocksInRange (plans : List BackfillPlan) (i : ℕ) :
    (blocksInRange plans i).toNat = Columns.largest (Columns.column (lengths plans) i) := by
  unfold blocksInRange lengths
  induction plans with
  | nil => rfl
  | cons p plans ih =>
    rw [List.map_cons, Columns.column_cons, List.filterMap_cons, List.getElem?_map]
    cases p.ranges[i]? with
    | none => exact ih
    | some r =>
      rw [Option.map_some, Option.map_some, List.foldr_cons, toNat_max, ih]
      rfl

/-- Once the rounds of `done` are over, the blocks they recorded are counted, under the total. -/
def Recorded (chainId total : UInt64) (plans : List BackfillPlan) (done : List ℕ)
    (progress : UInt64 → Option (UInt64 × UInt64 × UInt64)) : Prop :=
  ∃ processed events, progress chainId = some (total, processed, events) ∧
    processed.toNat = (done.map fun i => (blocksInRange plans i).toNat).sum

theorem initProgress_recorded (chainId : UInt64) (plans : List BackfillPlan) :
    Proc.Triple (fun _ : World V => True) (initProgress chainId plans)
      (fun _ w => (plans.map fun p => p.totalBlocks.toNat).sum < 2 ^ 64 ∧
        Recorded chainId (UInt64.ofNat (plans.map fun p => p.totalBlocks.toNat).sum) plans []
          w.progress) fun _ => True := by
  unfold initProgress
  dsimp only
  split_ifs with hlarge
  · exact Proc.Triple.stop fun _ _ => trivial
  · apply Proc.Triple.modify
    intro w _
    exact ⟨by omega, 0, 0, Function.update_self .., rfl⟩

section Run

variable {co : BackfillCoordinator V} {env : Env V} {chainId total : UInt64}
  {plans : List BackfillPlan}

theorem Recorded.record {done : List ℕ} {i : ℕ}
    {progress : UInt64 → Option (UInt64 × UInt64 × UInt64)}
    (h : Recorded chainId total plans done progress) (events : UInt64)
    (hroom : ((done ++ [i]).map fun i => (blocksInRange plans i).toNat).sum < 2 ^ 64) :
    Recorded chainId total plans (done ++ [i]) (Function.update progress chainId
      ((progress chainId).map fun p => (p.1, p.2.1 + blocksInRange plans i, p.2.2 + events))) := by
  obtain ⟨processed, seen, hprogress, hprocessed⟩ := h
  refine ⟨processed + blocksInRange plans i, seen + events, ?_, ?_⟩
  · rw [Function.update_self, hprogress]
    rfl
  · rw [List.map_append, List.map_singleton, List.sum_append, List.sum_singleton] at hroom ⊢
    rw [UInt64.toNat_add, hprocessed]
    omega

variable [DecidableEq V]

theorem processRange_recorded {done : List ℕ} {i : ℕ}
    (hroom : ((done ++ [i]).map fun i => (blocksInRange plans i).toNat).sum < 2 ^ 64) :
    Proc.Triple (fun w : World V => Recorded chainId total plans done w.progress)
      (co.processRange env chainId plans i)
      (fun _ w => Recorded chainId total plans (done ++ [i]) w.progress) fun _ => True := by
  have hbefore {α : Type} {m : Proc (World V) SyncError α} (h : Proc.Leaves World.progress m) :
      Proc.Triple (fun w : World V => Recorded chainId total plans done w.progress) m
        (fun _ w => Recorded chainId total plans done w.progress) fun _ => True :=
    (h.triple (Recorded chainId total plans done)).conseq (fun _ hw => hw) (fun _ _ hw => hw)
      fun _ _ => trivial
  have hfetch : Proc.Leaves (World.progress (V := V)) (Proc.ofExcept (co.fetchAll chainId plans i)) :=
    fun _ => Proc.Triple.ofExcept (fun _ _ _ hw => hw) fun _ hw => hw
  apply (hbefore hfetch).bind
  intro es
  apply (hbefore (leaves_dispatchAll (fun _ _ _ _ => rfl) co i _)).bind
  intro _
  apply (hbefore (leaves_flushAll fun _ _ _ _ _ _ => rfl)).bind
  intro _
  apply (hbefore (Proc.Leaves.forEach fun p =>
    leaves_saveCheckpoint (fun _ _ _ => rfl) env chainId i p)).bind
  intro _
  exact Proc.Triple.modify fun w hw => hw.record _ hroom

theorem processRanges_recorded (co : BackfillCoordinator V) (env : Env V) (chainId total : UInt64)
    {n : ℕ}
    (hroom : ((List.range n).map fun i => (blocksInRange plans i).toNat).sum < 2 ^ 64) :
    Proc.Triple (fun w : World V => Recorded chainId total plans [] w.progress)
      (Proc.forEach (co.processRange env chainId plans) (List.range n))
      (fun _ w => Recorded chainId total plans (List.range n) w.progress) fun _ => True := by
  apply Proc.Triple.forEach (I := fun done (w : World V) =>
    Recorded chainId total plans done w.progress)
  intro pre i post hsplit
  apply processRange_recorded
  -- the rounds so far count no more blocks than all of them
  rw [hsplit, List.append_cons, List.map_append, List.sum_append] at hroom
  omega

end Run

/-- The blocks from which planning starts the contracts, in order. -/
def startsFrom (env : Env V) (w : World V) (chainId : UInt64) :
    ℕ → List ContractConfig → List UInt64
  | _, [] => []
  | n, c :: cs => startAt env w n chainId c :: startsFrom env w chainId (n + 1) cs

/-- The blocks from which a run starts the contracts of its chain: their checkpoints where these are
read, else their start blocks. -/
def starts (co : BackfillCoordinator V) (env : Env V) (chainId : UInt64) (w : World V) :
    List UInt64 :=
  startsFrom env w chainId w.clock (co.chainContracts chainId)

/-- The total of a plan is the number of blocks in its ranges, and these are not empty. -/
theorem plan_lengths {config : ContractConfig} {chainId current : UInt64}
    {checkpoint : Option UInt64} {chunk : UInt64} {p : BackfillPlan}
    (h : plan config chainId current checkpoint chunk = .ok p) (hchunk : 1 ≤ chunk) :
    p.totalBlocks.toNat = (p.ranges.map fun r => r.len.toNat).sum ∧
      (∀ r ∈ p.ranges, 0 < r.len.toNat) ∧
      (p.ranges = [] ↔ current < checkpoint.getD config.startBlock) := by
  have hpos : 0 < chunk.toNat := UInt64.le_iff_toNat_le.mp hchunk
  by_cases hlt : current < checkpoint.getD config.startBlock
  · obtain ⟨-, ⟨-, hnil, htotal⟩ | ⟨hle, -, -⟩⟩ := plan_cases h
    · rw [hnil, htotal]
      exact ⟨rfl, fun r hr => absurd hr List.not_mem_nil, iff_of_true rfl hlt⟩
    · exact absurd hlt (UInt64.not_lt.mpr hle)
  · obtain ⟨hchunked, htotal⟩ := plan_chunked h (UInt64.not_lt.mp hlt)
    have hsum := hchunked.sum_len hpos chunk.toNat_lt
    refine ⟨by omega, ?_, iff_of_false hchunked.ne_nil hlt⟩
    exact fun r hr => (hchunked.toNat_len hpos chunk.toNat_lt hr).1

theorem plansFrom_lengths {co : BackfillCoordinator V} {env : Env V}
    {chainId currentBlock : UInt64} {w : World V}
    (hchunk : 1 ≤ (co.chainChunkSizes chainId).getD defaultChunkSize) {n : ℕ}
    {cs : List ContractConfig} {plans : List BackfillPlan}
    (h : co.plansFrom env chainId currentBlock w n cs = .ok plans) :
    (plans.map fun p => p.totalBlocks.toNat).sum = ((lengths plans).map List.sum).sum ∧
      (∀ row ∈ lengths plans, ∀ a ∈ row, 0 < a) ∧
      ((lengths plans).countP fun row => !row.isEmpty) =
        (startsFrom env w chainId n cs).countP fun start => decide (start ≤ currentBlock) := by
  induction cs generalizing n plans with
  | nil =>
    cases h
    exact ⟨rfl, fun row hrow => absurd hrow List.not_mem_nil, rfl⟩
  | cons c cs ih =>
    obtain ⟨p, rest, rfl, hp, hrest⟩ := plansFrom_cons h
    obtain ⟨htotals, hpos, hcount⟩ := ih hrest
    obtain ⟨htotal, hlen, hnil⟩ := plan_lengths hp hchunk
    have hcons : lengths (p :: rest) = (p.ranges.map fun r => r.len.toNat) :: lengths rest := rfl
    refine ⟨?_, ?_, ?_⟩
    · rw [hcons, List.map_cons, List.map_cons, List.sum_cons, List.sum_cons, htotal, htotals]
    · rw [hcons, List.forall_mem_cons]
      refine ⟨?_, hpos⟩
      intro a ha
      obtain ⟨r, hr, rfl⟩ := List.mem_map.mp ha
      exact hlen r hr
    · rw [hcons, List.countP_cons, hcount, startsFrom, List.countP_cons]
      congr 1
      have hiff : (!(p.ranges.map fun r => r.len.toNat).isEmpty) = true ↔
          decide (startAt env w n chainId c ≤ currentBlock) = true := by
        rw [Bool.not_eq_true', decide_eq_true_iff, ← UInt64.not_lt]
        have hempty := not_congr hnil
        simpa [startAt] using hempty
      simp only [hiff]

theorem length_lengths_le {plans : List BackfillPlan} {row : List ℕ} (h : row ∈ lengths plans) :
    row.length ≤ maxRanges plans := by
  obtain ⟨p, hp, rfl⟩ := List.mem_map.mp h
  rw [List.length_map]
  exact length_le_maxRanges hp

variable [DecidableEq V]

/-- The rounds of all plans are recorded, under the total of the plans. -/
def RecordedAll (co : BackfillCoordinator V) (env : Env V) (chainId currentBlock : UInt64)
    (w : World V) (progress : UInt64 → Option (UInt64 × UInt64 × UInt64)) : Prop :=
  ∃ plans total,
    co.plansFrom env chainId currentBlock w w.clock (co.chainContracts chainId) = .ok plans ∧
      total.toNat = (plans.map fun p => p.totalBlocks.toNat).sum ∧
      Recorded chainId total plans (List.range (maxRanges plans)) progress

theorem sum_blocksInRange (plans : List BackfillPlan) :
    ((List.range (maxRanges plans)).map fun i => (blocksInRange plans i).toNat).sum =
      ((List.range (maxRanges plans)).map fun i =>
        Columns.largest (Columns.column (lengths plans) i)).sum := by
  simp only [toNat_blocksInRange]

theorem runChain_recorded {co : BackfillCoordinator V} {env : Env V}
    {chainId currentBlock : UInt64} {w w' : World V} (hcontracts : co.chainContracts chainId ≠ [])
    (hchunk : 1 ≤ (co.chainChunkSizes chainId).getD defaultChunkSize)
    (hrun : co.runChain env chainId currentBlock w = (.ok (), w')) :
    co.RecordedAll env chainId currentBlock w w'.progress := by
  have htriple : Proc.Triple (fun s => s = w) (co.runChain env chainId currentBlock)
      (fun _ s => co.RecordedAll env chainId currentBlock w s.progress) fun _ => True := by
    unfold runChain
    rw [if_neg (by simpa using hcontracts)]
    apply ((co.planAll_triple env chainId currentBlock w).conseq (fun _ h => h) (fun _ _ h => h)
      fun _ _ => trivial).bind
    intro plans s hs
    have hplans := hs.1
    -- no round goes beyond the total, which is less than 2 ^ 64
    have hroom : ((List.range (maxRanges plans)).map fun i => (blocksInRange plans i).toNat).sum ≤
        (plans.map fun p => p.totalBlocks.toNat).sum := by
      rw [(plansFrom_lengths hchunk hplans).1, sum_blocksInRange]
      exact Columns.sum_largest_le fun _ => length_lengths_le
    apply ((initProgress_recorded chainId plans).bind fun _ => ?_) s trivial
    intro s' hs'
    have hloop := processRanges_recorded co env chainId
      (UInt64.ofNat (plans.map fun p => p.totalBlocks.toNat).sum) (lt_of_le_of_lt hroom hs'.1)
    exact (hloop.conseq (fun _ h => h) (fun _ _ h =>
      ⟨plans, _, hplans, UInt64.toNat_ofNat_of_lt' hs'.1, h⟩) fun _ h => h) s' hs'.2
  exact htriple.of_ok rfl hrun

/-- A finished run has counted all blocks of its total if and only if one contract at most starts
at or below the current block. -/
theorem progress_complete_iff (co : BackfillCoordinator V) (env : Env V)
    {chainId currentBlock : UInt64} {w w' : World V} (hcontracts : co.chainContracts chainId ≠ [])
    (hchunk : 1 ≤ (co.chainChunkSizes chainId).getD defaultChunkSize)
    (hrun : co.runChain env chainId currentBlock w = (.ok (), w')) :
    ∃ total processed events, w'.progress chainId = some (total, processed, events) ∧
      (processed = total ↔
        ((co.starts env chainId w).countP fun start => decide (start ≤ currentBlock)) ≤ 1) := by
  obtain ⟨plans, total, hplans, htotal, processed, events, hprogress, hprocessed⟩ :=
    runChain_recorded hcontracts hchunk hrun
  obtain ⟨htotals, hpos, hcount⟩ := plansFrom_lengths hchunk hplans
  refine ⟨total, processed, events, hprogress, ?_⟩
  unfold starts
  rw [← hcount, ← Columns.sum_largest_eq_iff (fun _ => length_lengths_le) hpos,
    ← sum_blocksInRange, ← hprocessed, ← htotals, ← htotal]
  exact UInt64.toNat_inj.symm

/-- One contract behind its checkpoint and one that is done. -/
theorem progress_complete_iff_one :
    let co : BackfillCoordinator String :=
      listCoordinator String ⟨[]⟩ [⟨"A", 0⟩, ⟨"B", 200⟩] (fun _ => []) 50
    let w := (co.runChain (plainEnv ⟨[]⟩) 1 119 (World.fresh String)).2
    w.progress 1 = some (120, 120, 0) ∧ ∃ total processed events,
      w.progress 1 = some (total, processed, events) ∧ processed = total := by
  intro co w
  have hrun : co.runChain (plainEnv ⟨[]⟩) 1 119 (World.fresh String) = (.ok (), w) :=
    Proc.eq_ok_of_fst (by decide +kernel)
  obtain ⟨total, processed, events, hprogress, hiff⟩ :=
    progress_complete_iff co (plainEnv ⟨[]⟩) (by decide) (by decide) hrun
  exact ⟨by decide +kernel, total, processed, events, hprogress, hiff.mpr (by decide)⟩

/-- Two contracts from block 0 to block 99: two hundred blocks in all, and a hundred recorded. -/
theorem progress_not_complete :
    let co : BackfillCoordinator String :=
      listCoordinator String ⟨[]⟩ [⟨"A", 0⟩, ⟨"B", 0⟩] (fun _ => []) 50
    let run := co.runChain (plainEnv ⟨[]⟩) 1 99 (World.fresh String)
    run.1 = .ok () ∧ run.2.progress 1 = some (200, 100, 0) := by
  decide +kernel

end BackfillCoordinator

end ForgeIndex
