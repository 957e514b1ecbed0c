import Mathlib.Data.List.Perm.Basic
import Mathlib.Tactic.Linarith

/-!
# The backfill planner

`forge-index-sync/src/backfill/planner.rs`.  An overflow of `u64` is a failure of its own: the
loop would go on with it, from ranges that begin at zero again, so the question of what `plan` returns
ends there.  (A test that only compares, such as `FinalityTracker::is_finalized`, is modelled with
the sum that wraps around.)
-/

namespace ForgeIndex

/-- `BlockRange`, both ends inclusive. -/
structure BlockRange where
  fromBlock : UInt64
  toBlock : UInt64
  deriving DecidableEq, Repr

namespace BlockRange

def len (r : BlockRange) : UInt64 :=
  if r.fromBlock ≤ r.toBlock then r.toBlock - r.fromBlock + 1 else 0

/-- The block lies in the range. -/
def Covers (r : BlockRange) (n : UInt64) : Prop := r.fromBlock ≤ n ∧ n ≤ r.toBlock

instance (r : BlockRange) (n : UInt64) : Decidable (r.Covers n) :=
  inferInstanceAs (Decidable (r.fromBlock ≤ n ∧ n ≤ r.toBlock))

end BlockRange

/-- What the planner reads of `ContractConfig`. -/
structure ContractConfig where
  name : String
  startBlock : UInt64
  deriving DecidableEq, Repr

structure BackfillPlan where
  contractName : String
  chainId : UInt64
  ranges : List BlockRange
  totalBlocks : UInt64
  deriving DecidableEq, Repr

/-- Why `plan` does not return. -/
inductive PlanFailure where
  | overflow | endless
  deriving DecidableEq, Repr

/-- `(from + chunk_size - 1).min(current_block)`. -/
def lastOfChunk (currentBlock chunkSize fromBlock : UInt64) : UInt64 :=
  min (fromBlock + chunkSize - 1) currentBlock

/-- The `while` loop of `plan`, for a number of rounds. -/
def planLoop (currentBlock chunkSize : UInt64) : ℕ → UInt64 → Except PlanFailure (List BlockRange)
  | 0, _ => .error .endless
  | n + 1, fromBlock =>
    if fromBlock ≤ currentBlock then
      if 2 ^ 64 ≤ fromBlock.toNat + chunkSize.toNat ∨ fromBlock.toNat + chunkSize.toNat = 0 then
        .error .overflow
      else if (lastOfChunk currentBlock chunkSize fromBlock).toNat + 1 = 2 ^ 64 then
        .error .overflow
      else
        (planLoop currentBlock chunkSize n (lastOfChunk currentBlock chunkSize fromBlock + 1)).map
          fun ranges => ⟨fromBlock, lastOfChunk currentBlock chunkSize fromBlock⟩ :: ranges
    else .ok []

/-- `plan`.  A loop that has not ended after one round for each block never will. -/
def plan (config : ContractConfig) (chainId currentBlock : UInt64) (checkpoint : Option UInt64)
    (chunkSize : UInt64) : Except PlanFailure BackfillPlan :=
  let start := checkpoint.getD config.startBlock
  if currentBlock < start then .ok ⟨config.name, chainId, [], 0⟩
  else
    (planLoop currentBlock chunkSize (currentBlock.toNat - start.toNat + 2) start).map
      fun ranges => ⟨config.name, chainId, ranges, currentBlock - start + 1⟩

theorem plan_cases {config : ContractConfig} {chainId current : UInt64} {checkpoint : Option UInt64}
    {chunk : UInt64} {p : BackfillPlan}
    (h : plan config chainId current checkpoint chunk = .ok p) :
    p.contractName = config.name ∧
      ((current < checkpoint.getD config.startBlock ∧ p.ranges = [] ∧ p.totalBlocks = 0) ∨
        (checkpoint.getD config.startBlock ≤ current ∧
          planLoop current chunk (current.toNat - (checkpoint.getD config.startBlock).toNat + 2)
            (checkpoint.getD config.startBlock) = .ok p.ranges ∧
          p.totalBlocks = current - checkpoint.getD config.startBlock + 1)) := by
  unfold plan at h
  dsimp only at h
  split at h
  · rename_i hlt
    cases h
    exact ⟨rfl, .inl ⟨hlt, rfl, rfl⟩⟩
  · rename_i hle
    cases hloop : planLoop current chunk
        (current.toNat - (checkpoint.getD config.startBlock).toNat + 2)
        (checkpoint.getD config.startBlock) with
    | error e =>
      rw [hloop] at h
      cases h
    | ok ranges =>
      rw [hloop] at h
      cases h
      exact ⟨rfl, .inr ⟨UInt64.not_lt.mp hle, rfl, rfl⟩⟩

/-- The ranges follow each other from `lo` to `hi` without a gap. -/
def Tiles : ℕ → ℕ → List BlockRange → Prop
  | lo, hi, [] => hi < lo
  | lo, hi, r :: rs => r.fromBlock.toNat = lo ∧ lo ≤ r.toBlock.toNat ∧ r.toBlock.toNat ≤ hi ∧
      (r.toBlock + 1).toNat = r.toBlock.toNat + 1 ∧ Tiles (r.toBlock.toNat + 1) hi rs

theorem toNat_lastOfChunk (current : UInt64) {chunk lo : UInt64}
    (hlt : lo.toNat + chunk.toNat < 2 ^ 64) (hpos : 0 < lo.toNat + chunk.toNat) :
    (lastOfChunk current chunk lo).toNat = min (lo.toNat + chunk.toNat - 1) current.toNat := by
  have hsub : (lo + chunk - 1).toNat = lo.toNat + chunk.toNat - 1 := by
    rw [UInt64.toNat_sub_of_le]
    · rw [UInt64.toNat_add, Nat.mod_eq_of_lt hlt]
      rfl
    · rw [UInt64.le_iff_toNat_le, UInt64.toNat_add, Nat.mod_eq_of_lt hlt]
      exact hpos
  show (if lo + chunk - 1 ≤ current then lo + chunk - 1 else current).toNat = _
  split_ifs with hle
  · rw [UInt64.le_iff_toNat_le] at hle
    omega
  · rw [UInt64.le_iff_toNat_le] at hle
    omega

theorem toNat_succ {n : UInt64} (h : n.toNat + 1 ≠ 2 ^ 64) : (n + 1).toNat = n.toNat + 1 := by
  have hn := n.toNat_lt
  rw [UInt64.toNat_add, UInt64.toNat_one]
  omega

theorem planLoop_succ_ok {current chunk : UInt64} {n : ℕ} {lo : UInt64} {rs : List BlockRange}
    (h : planLoop current chunk (n + 1) lo = .ok rs) :
    (current < lo ∧ rs = []) ∨
      ∃ r rest, rs = r :: rest ∧ r.fromBlock = lo ∧ lo ≤ current ∧
        r.toBlock.toNat + 1 = min (lo.toNat + chunk.toNat) (current.toNat + 1) ∧
        planLoop current chunk n (r.toBlock + 1) = .ok rest ∧
        (r.toBlock + 1).toNat = r.toBlock.toNat + 1 := by
  unfold planLoop at h
  split at h
  · rename_i hle
    split at h
    · cases h
    · rename_i hov
      push Not at hov
      split at h
      · cases h
      · rename_i hlast
        cases hrec : planLoop current chunk n (lastOfChunk current chunk lo + 1) with
        | error e =>
          rw [hrec] at h
          cases h
        | ok rest =>
          rw [hrec] at h
          cases h
          refine .inr ⟨_, rest, rfl, rfl, hle, ?_, hrec, toNat_succ hlast⟩
          have hto := toNat_lastOfChunk current hov.1 (Nat.pos_of_ne_zero hov.2)
          have hpos := hov.2
          show (lastOfChunk current chunk lo).toNat + 1 = _
          omega
  · rename_i hgt
    cases h
    exact .inl ⟨UInt64.not_le.mp hgt, rfl⟩

theorem planLoop_zero {current : UInt64} (n : ℕ) {lo : UInt64} (hle : lo ≤ current)
    (rs : List BlockRange) : planLoop current 0 n lo ≠ .ok rs := by
  induction n generalizing rs with
  | zero => simp [planLoop]
  | succ n ih =>
    intro h
    rcases planLoop_succ_ok h with ⟨hlt, -⟩ | ⟨r, rest, -, -, -, hto, hrest, hsucc⟩
    · exact UInt64.not_lt.mpr hle hlt
    · have hlo : r.toBlock + 1 = lo := by
        apply UInt64.toNat_inj.mp
        have hcur := UInt64.le_iff_toNat_le.mp hle
        rw [hsucc, hto, UInt64.toNat_zero]
        omega
      rw [hlo] at hrest
      exact ih rest hrest

theorem toNat_pos {n : UInt64} (h : n ≠ 0) : 0 < n.toNat := by
  apply Nat.pos_of_ne_zero
  intro h0
  apply h
  apply UInt64.toNat_inj.mp
  rw [h0, UInt64.toNat_zero]

theorem tiles_of_planLoop {current chunk : UInt64} (hchunk : chunk ≠ 0) {n : ℕ} {lo : UInt64}
    {rs : List BlockRange} (h : planLoop current chunk n lo = .ok rs) :
    Tiles lo.toNat current.toNat rs := by
  have hpos := toNat_pos hchunk
  induction n generalizing lo rs with
  | zero => cases h
  | succ n ih =>
    rcases planLoop_succ_ok h with ⟨hlt, rfl⟩ | ⟨r, rest, rfl, rfl, hle, hto, hrest, hsucc⟩
    · exact UInt64.lt_iff_toNat_lt.mp hlt
    · have hcur := UInt64.le_iff_toNat_le.mp hle
      refine ⟨rfl, by omega, by omega, hsucc, ?_⟩
      rw [← hsucc]
      exact ih hrest

/-- The planner partitions the blocks from the checkpoint (or the start block) to the current
one. -/
theorem tiles_of_plan {config : ContractConfig} {chainId current : UInt64}
    {checkpoint : Option UInt64} {chunk : UInt64} {p : BackfillPlan}
    (h : plan config chainId current checkpoint chunk = .ok p) :
    p.contractName = config.name ∧
      Tiles (checkpoint.getD config.startBlock).toNat current.toNat p.ranges := by
  obtain ⟨hname, ⟨hlt, hnil, -⟩ | ⟨hle, hloop, -⟩⟩ := plan_cases h
  · rw [hnil]
    exact ⟨hname, UInt64.lt_iff_toNat_lt.mp hlt⟩
  · refine ⟨hname, tiles_of_planLoop ?_ hloop⟩
    intro h0
    subst h0
    exact planLoop_zero _ hle _ hloop

theorem planLoop_covers_iff {current chunk : UInt64} (hchunk : chunk ≠ 0) {k : ℕ} {lo : UInt64}
    {rs : List BlockRange} (h : planLoop current chunk k lo = .ok rs) (i : ℕ) (n : UInt64) :
    (∃ r, rs[i]? = some r ∧ r.Covers n) ↔
      lo ≤ n ∧ n ≤ current ∧ (n.toNat - lo.toNat) / chunk.toNat = i := by
  have hpos := toNat_pos hchunk
  induction k generalizing lo rs i with
  | zero => cases h
  | succ k ih =>
    rcases planLoop_succ_ok h with ⟨hlt, rfl⟩ | ⟨r, rest, rfl, rfl, hle, hto, hrest, hsucc⟩
    · simp only [UInt64.le_iff_toNat_le, UInt64.lt_iff_toNat_lt] at hlt ⊢
      constructor
      · rintro ⟨r, hr, -⟩
        simp at hr
      · intro ⟨hlo, hcur, _⟩
        omega
    · rw [UInt64.le_iff_toNat_le] at hle
      cases i with
      | zero =>
        simp only [List.getElem?_cons_zero, Option.some.injEq, exists_eq_left', BlockRange.Covers,
          UInt64.le_iff_toNat_le, Nat.div_eq_zero_iff]
        omega
      | succ i =>
        simp only [List.getElem?_cons_succ]
        refine (ih hrest i).trans ?_
        simp only [UInt64.le_iff_toNat_le, hsucc]
        by_cases hlast : r.fromBlock.toNat + chunk.toNat ≤ current.toNat + 1
        · -- a whole chunk lies before the rest
          by_cases hn : r.toBlock.toNat + 1 ≤ n.toNat
          · have hdiv : (n.toNat - r.fromBlock.toNat) / chunk.toNat =
                (n.toNat - (r.toBlock.toNat + 1)) / chunk.toNat + 1 := by
              rw [← Nat.add_div_right _ hpos]
              congr 1
              omega
            omega
          · have hzero : (n.toNat - r.fromBlock.toNat) / chunk.toNat = 0 := by
              rw [Nat.div_eq_zero_iff]
              omega
            omega
        · -- the first range already reaches the current block
          have hzero : n.toNat ≤ current.toNat →
              (n.toNat - r.fromBlock.toNat) / chunk.toNat = 0 := by
            intro hcur
            rw [Nat.div_eq_zero_iff]
            omega
          constructor
          · intro ⟨hlo, hcur, _⟩
            omega
          · intro ⟨hlo, hcur, hdiv⟩
            have := hzero hcur
            omega

theorem plan_covers_iff {config : ContractConfig} {chainId current : UInt64}
    {checkpoint : Option UInt64} {chunk : UInt64} {p : BackfillPlan}
    (h : plan config chainId current checkpoint chunk = .ok p) (i : ℕ) (n : UInt64) :
    (∃ r, p.ranges[i]? = some r ∧ r.Covers n) ↔
      checkpoint.getD config.startBlock ≤ n ∧ n ≤ current ∧
        (n.toNat - (checkpoint.getD config.startBlock).toNat) / chunk.toNat = i := by
  obtain ⟨-, ⟨hlt, hnil, -⟩ | ⟨hle, hloop, -⟩⟩ := plan_cases h
  · rw [hnil]
    simp only [UInt64.le_iff_toNat_le, UInt64.lt_iff_toNat_lt] at hlt ⊢
    constructor
    · rintro ⟨r, hr, -⟩
      simp at hr
    · intro ⟨hlo, hcur, _⟩
      omega
  · refine planLoop_covers_iff ?_ hloop i n
    intro h0
    subst h0
    exact planLoop_zero _ hle _ hloop

/-- A range of a tiling ends in the interval, and the blocks up to its end lie in the ranges up to
it. -/
theorem Tiles.of_getElem? {lo hi : ℕ} {rs : List BlockRange} (h : Tiles lo hi rs) {i : ℕ}
    {r : BlockRange} (hr : rs[i]? = some r) :
    lo ≤ r.toBlock.toNat ∧ r.toBlock.toNat ≤ hi ∧ (r.toBlock + 1).toNat = r.toBlock.toNat + 1 ∧
      ∀ n : UInt64, lo ≤ n.toNat → n ≤ r.toBlock → ∃ q ∈ rs.take (i + 1), q.Covers n := by
  induction rs generalizing lo i with
  | nil => simp at hr
  | cons q rs ih =>
    obtain ⟨hfrom, hle, hhi, hsucc, hrest⟩ := h
    have hq (n : UInt64) (hlo : lo ≤ n.toNat) (hn : n.toNat ≤ q.toBlock.toNat) : q.Covers n := by
      unfold BlockRange.Covers
      rw [UInt64.le_iff_toNat_le, UInt64.le_iff_toNat_le]
      omega
    cases i with
    | zero =>
      simp only [List.getElem?_cons_zero, Option.some.injEq] at hr
      subst hr
      refine ⟨hle, hhi, hsucc, fun n hlo hn => ⟨q, by simp, hq n hlo ?_⟩⟩
      exact UInt64.le_iff_toNat_le.mp hn
    | succ i =>
      rw [List.getElem?_cons_succ] at hr
      obtain ⟨hle', hhi', hsucc', hcov⟩ := ih hrest hr
      refine ⟨by omega, hhi', hsucc', fun n hlo hn => ?_⟩
      by_cases hlast : n.toNat ≤ q.toBlock.toNat
      · exact ⟨q, by simp, hq n hlo hlast⟩
      · obtain ⟨q', hq', hcovers⟩ := hcov n (by omega) hn
        exact ⟨q', List.mem_cons_of_mem _ hq', hcovers⟩

theorem Tiles.le_fromBlock {lo hi : ℕ} {rs : List BlockRange} (h : Tiles lo hi rs)
    {r : BlockRange} (hr : r ∈ rs) : lo ≤ r.fromBlock.toNat := by
  induction rs generalizing lo with
  | nil => simp at hr
  | cons q rs ih =>
    obtain ⟨hfrom, hle, -, -, hrest⟩ := h
    rcases List.mem_cons.mp hr with rfl | hr
    · omega
    · have := ih hrest hr
      omega

/-- The elements whose block lies in one of the ranges, range by range, are those whose block
lies in the interval. -/
theorem Tiles.flatMap_filter_perm {α : Type} {lo hi : ℕ} {rs : List BlockRange}
    (h : Tiles lo hi rs) (block : α → UInt64) (xs : List α) :
    (rs.flatMap fun r => xs.filter fun x => r.Covers (block x)).Perm
      (xs.filter fun x => lo ≤ (block x).toNat ∧ (block x).toNat ≤ hi) := by
  induction rs generalizing lo with
  | nil =>
    have hno : (xs.filter fun x => lo ≤ (block x).toNat ∧ (block x).toNat ≤ hi) = [] := by
      have hlt : hi < lo := h
      rw [List.filter_eq_nil_iff]
      intro x _
      simp only [decide_eq_true_eq]
      omega
    rw [hno]
    exact List.Perm.refl _
  | cons r rs ih =>
    obtain ⟨hfrom, hle, hhi, -, hrest⟩ := h
    have hsplit := List.filter_append_perm (fun x => decide ((block x).toNat ≤ r.toBlock.toNat))
      (xs.filter fun x => lo ≤ (block x).toNat ∧ (block x).toNat ≤ hi)
    rw [List.filter_filter, List.filter_filter] at hsplit
    have hfirst : (xs.filter fun x => r.Covers (block x)) = xs.filter fun x =>
        decide ((block x).toNat ≤ r.toBlock.toNat) &&
          decide (lo ≤ (block x).toNat ∧ (block x).toNat ≤ hi) := by
      apply List.filter_congr
      intro x _
      rw [← Bool.decide_and]
      apply decide_eq_decide.mpr
      unfold BlockRange.Covers
      rw [UInt64.le_iff_toNat_le, UInt64.le_iff_toNat_le, hfrom]
      omega
    have hlater : (xs.filter fun x => decide (r.toBlock.toNat + 1 ≤ (block x).toNat ∧
        (block x).toNat ≤ hi)) = xs.filter fun x =>
          (!decide ((block x).toNat ≤ r.toBlock.toNat)) &&
            decide (lo ≤ (block x).toNat ∧ (block x).toNat ≤ hi) := by
      apply List.filter_congr
      intro x _
      rw [← decide_not, ← Bool.decide_and]
      apply decide_eq_decide.mpr
      omega
    rw [List.flatMap_cons, hfirst]
    refine List.Perm.trans (List.Perm.append_left _ (ih hrest)) ?_
    rw [hlater]
    exact hsplit

end ForgeIndex
