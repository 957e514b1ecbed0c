import Mathlib.Tactic.Ring
import ForgeIndex.Backfill.Planner

/-!
# The ranges of a plan

When the planner returns, and what its ranges look like: whole chunks one after the other, and a
last one that ends at the current block.
-/

namespace ForgeIndex

/-- Ranges from `lo` to `hi`: whole chunks, then a last range of at most one chunk. -/
inductive Chunked (chunk : ℕ) : ℕ → ℕ → List BlockRange → Prop
  | last {lo hi : ℕ} {r : BlockRange} : r.fromBlock.toNat = lo → r.toBlock.toNat = hi →
      lo ≤ hi → hi < lo + chunk → Chunked chunk lo hi [r]
  | cons {lo hi : ℕ} {r : BlockRange} {rs : List BlockRange} : r.fromBlock.toNat = lo →
      r.toBlock.toNat + 1 = lo + chunk → Chunked chunk (lo + chunk) hi rs →
      Chunked chunk lo hi (r :: rs)

/-- The ranges partition the blocks from `start` to `current` into chunks. -/
structure Partitions (start current chunk : UInt64) (ranges : List BlockRange) : Prop where
  nonempty : ∀ r ∈ ranges, 0 < r.len
  bounded : ∀ r ∈ ranges, r.len ≤ chunk
  consecutive : ∀ i r q, ranges[i]? = some r → ranges[i + 1]? = some q →
    q.fromBlock.toNat = r.toBlock.toNat + 1
  first : ranges.head?.map BlockRange.fromBlock = some start
  last : ranges.getLast?.map BlockRange.toBlock = some current
  full : ∀ r ∈ ranges.dropLast, r.len = chunk

theorem BlockRange.toNat_len {r : BlockRange} (hle : r.fromBlock ≤ r.toBlock)
    (hlt : r.toBlock.toNat - r.fromBlock.toNat + 1 < 2 ^ 64) :
    r.len.toNat = r.toBlock.toNat - r.fromBlock.toNat + 1 := by
  rw [BlockRange.len, if_pos hle, UInt64.toNat_add, UInt64.toNat_sub_of_le _ _ hle,
    UInt64.toNat_one, Nat.mod_eq_of_lt hlt]

section Chunked

variable {chunk lo hi : ℕ} {ranges : List BlockRange}

theorem Chunked.ne_nil (h : Chunked chunk lo hi ranges) : ranges ≠ [] := by
  cases h <;> simp

theorem Chunked.head (h : Chunked chunk lo hi ranges) :
    ∃ r, ranges.head? = some r ∧ r.fromBlock.toNat = lo := by
  cases h with
  | last hfrom => exact ⟨_, rfl, hfrom⟩
  | cons hfrom => exact ⟨_, rfl, hfrom⟩

theorem Chunked.getLast (h : Chunked chunk lo hi ranges) :
    ∃ r, ranges.getLast? = some r ∧ r.toBlock.toNat = hi := by
  induction h with
  | last _ hto => exact ⟨_, rfl, hto⟩
  | cons _ _ hrest ih =>
    rw [List.getLast?_cons_of_ne_nil hrest.ne_nil]
    exact ih

theorem Chunked.consecutive (h : Chunked chunk lo hi ranges) {i : ℕ} {r q : BlockRange}
    (hr : ranges[i]? = some r) (hq : ranges[i + 1]? = some q) :
    q.fromBlock.toNat = r.toBlock.toNat + 1 := by
  induction h generalizing i with
  | last => simp at hq
  | cons _ hto hrest ih =>
    rw [List.getElem?_cons_succ] at hq
    cases i with
    | zero =>
      obtain ⟨head, hhead, hfrom⟩ := hrest.head
      rw [List.head?_eq_getElem?, hq] at hhead
      rw [List.getElem?_cons_zero] at hr
      cases hhead
      cases hr
      omega
    | succ i => exact ih hr hq

theorem Chunked.toNat_len (h : Chunked chunk lo hi ranges) (hpos : 0 < chunk)
    (hchunk : chunk < 2 ^ 64) {r : BlockRange} (hr : r ∈ ranges) :
    0 < r.len.toNat ∧ r.len.toNat ≤ chunk ∧ (r ∈ ranges.dropLast → r.len.toNat = chunk) := by
  have hlen (q : BlockRange) (hle : q.fromBlock.toNat ≤ q.toBlock.toNat)
      (hlt : q.toBlock.toNat < q.fromBlock.toNat + chunk) :
      q.len.toNat = q.toBlock.toNat - q.fromBlock.toNat + 1 :=
    BlockRange.toNat_len (UInt64.le_iff_toNat_le.mpr hle) (by omega)
  induction h with
  | last hfrom hto hle hlt =>
    rw [List.mem_singleton] at hr
    subst hr
    have := hlen r (by omega) (by omega)
    refine ⟨by omega, by omega, ?_⟩
    intro hmem
    simp at hmem
  | cons hfrom hto hrest ih =>
    rename_i lo hi q rs
    have hq := hlen q (by omega) (by omega)
    by_cases heq : r = q
    · subst heq
      exact ⟨by omega, by omega, fun _ => by omega⟩
    · obtain ⟨hpos, hle, hfull⟩ := ih ((List.mem_cons.mp hr).resolve_left heq)
      refine ⟨hpos, hle, ?_⟩
      intro hmem
      rw [List.dropLast_cons_of_ne_nil hrest.ne_nil] at hmem
      exact hfull ((List.mem_cons.mp hmem).resolve_left heq)

theorem Chunked.sum_len (h : Chunked chunk lo hi ranges) (hpos : 0 < chunk)
    (hchunk : chunk < 2 ^ 64) : lo + (ranges.map fun r => r.len.toNat).sum = hi + 1 := by
  induction h with
  | last hfrom hto hle hlt =>
    rename_i lo hi r
    have hlen : r.len.toNat = r.toBlock.toNat - r.fromBlock.toNat + 1 :=
      BlockRange.toNat_len (UInt64.le_iff_toNat_le.mpr (by omega)) (by omega)
    rw [List.map_singleton, List.sum_singleton]
    omega
  | cons hfrom hto hrest ih =>
    rename_i lo hi r rs
    have hlen : r.len.toNat = r.toBlock.toNat - r.fromBlock.toNat + 1 :=
      BlockRange.toNat_len (UInt64.le_iff_toNat_le.mpr (by omega)) (by omega)
    rw [List.map_cons, List.sum_cons]
    omega

end Chunked

theorem Chunked.partitions {start current chunk : UInt64} {ranges : List BlockRange}
    (hchunk : 0 < chunk.toNat)
    (h : Chunked chunk.toNat start.toNat current.toNat ranges) :
    Partitions start current chunk ranges where
  nonempty r hr := by
    rw [UInt64.lt_iff_toNat_lt]
    exact (h.toNat_len hchunk chunk.toNat_lt hr).1
  bounded r hr := by
    rw [UInt64.le_iff_toNat_le]
    exact (h.toNat_len hchunk chunk.toNat_lt hr).2.1
  consecutive i r q hr hq := h.consecutive hr hq
  first := by
    obtain ⟨r, hr, hfrom⟩ := h.head
    rw [hr, Option.map_some, UInt64.toNat_inj.mp hfrom]
  last := by
    obtain ⟨r, hr, hto⟩ := h.getLast
    rw [hr, Option.map_some, UInt64.toNat_inj.mp hto]
  full r hr := by
    apply UInt64.toNat_inj.mp
    exact (h.toNat_len hchunk chunk.toNat_lt (List.dropLast_subset _ hr)).2.2 hr

theorem chunked_of_planLoop {current chunk : UInt64} {n : ℕ} {lo : UInt64} (hle : lo ≤ current)
    {ranges : List BlockRange} (h : planLoop current chunk n lo = .ok ranges) :
    Chunked chunk.toNat lo.toNat current.toNat ranges := by
  induction n generalizing lo ranges with
  | zero => cases h
  | succ n ih =>
    rcases planLoop_succ_ok h with ⟨hlt, -⟩ | ⟨r, rest, rfl, rfl, -, hto, hrest, hsucc⟩
    · exact absurd hle (UInt64.not_le.mpr hlt)
    · rw [UInt64.le_iff_toNat_le] at hle
      by_cases hend : r.fromBlock.toNat + chunk.toNat ≤ current.toNat
      · -- a whole chunk, and blocks behind it
        have hnext := ih (by rw [UInt64.le_iff_toNat_le]; omega) hrest
        rw [hsucc, show r.toBlock.toNat + 1 = r.fromBlock.toNat + chunk.toNat by omega] at hnext
        exact .cons rfl (by omega) hnext
      · -- the loop leaves with this range
        have hempty : rest = [] := by
          cases n with
          | zero => cases hrest
          | succ n =>
            rcases planLoop_succ_ok hrest with ⟨-, hnil⟩ | ⟨q, -, -, hfrom, hle', -⟩
            · exact hnil
            · rw [UInt64.le_iff_toNat_le] at hle'
              omega
        subst hempty
        exact .last rfl (by omega) hle (by omega)

/-- The end of the last chunk from `lo` on that begins at or before the current block. -/
def lastEnd (current chunk lo : ℕ) : ℕ := lo + ((current - lo) / chunk + 1) * chunk

theorem lastEnd_add {current chunk lo : ℕ} (hpos : 0 < chunk) (h : lo + chunk ≤ current) :
    lastEnd current chunk (lo + chunk) = lastEnd current chunk lo := by
  have hdiv : (current - lo) / chunk = (current - (lo + chunk)) / chunk + 1 := by
    rw [← Nat.add_div_right _ hpos]
    congr 1
    omega
  unfold lastEnd
  rw [hdiv]
  ring

theorem lastEnd_of_lt {current chunk lo : ℕ} (h : current < lo + chunk) :
    lastEnd current chunk lo = lo + chunk := by
  unfold lastEnd
  rw [(Nat.div_eq_zero_iff).mpr (by omega)]
  omega

theorem lastEnd_bounds {current chunk lo : ℕ} (hpos : 0 < chunk) (h : lo ≤ current) :
    lo + chunk ≤ lastEnd current chunk lo ∧ current < lastEnd current chunk lo ∧
      lastEnd current chunk lo ≤ current + chunk := by
  have hdiv := Nat.div_add_mod (current - lo) chunk
  have hmod := Nat.mod_lt (current - lo) hpos
  have hcomm : ((current - lo) / chunk + 1) * chunk = chunk * ((current - lo) / chunk) + chunk := by
    ring
  unfold lastEnd
  omega

theorem planLoop_ok_iff {current chunk : UInt64} (hpos : 0 < chunk.toNat) {n : ℕ} {lo : UInt64}
    (hn : current.toNat + 2 ≤ lo.toNat + n) (hle : lo ≤ current) :
    (∃ ranges, planLoop current chunk n lo = .ok ranges) ↔
      lastEnd current.toNat chunk.toNat lo.toNat < 2 ^ 64 := by
  induction n generalizing lo with
  | zero =>
    rw [UInt64.le_iff_toNat_le] at hle
    omega
  | succ n ih =>
    have hle' := UInt64.le_iff_toNat_le.mp hle
    obtain ⟨hfirst, -, -⟩ := lastEnd_bounds hpos hle'
    by_cases hover : 2 ^ 64 ≤ lo.toNat + chunk.toNat
    · rw [planLoop, if_pos hle, if_pos (.inl hover)]
      constructor
      · rintro ⟨_, h⟩
        cases h
      · intro h
        omega
    · have hto := toNat_lastOfChunk current (Nat.not_le.mp hover) (by omega)
      have hsucc : (lastOfChunk current chunk lo).toNat + 1 ≠ 2 ^ 64 := by omega
      have hnext := toNat_succ hsucc
      rw [planLoop, if_pos hle, if_neg (by omega), if_neg hsucc]
      have hmap (x : Except PlanFailure (List BlockRange)) (r : BlockRange) :
          (∃ ranges, (x.map fun ranges => r :: ranges) = .ok ranges) ↔
            ∃ ranges, x = .ok ranges := by
        cases x with
        | error e => simp [Except.map]
        | ok ranges => simp [Except.map]
      rw [hmap]
      by_cases hend : lo.toNat + chunk.toNat ≤ current.toNat
      · rw [ih (by omega) (by rw [UInt64.le_iff_toNat_le]; omega), hnext,
          show (lastOfChunk current chunk lo).toNat + 1 = lo.toNat + chunk.toNat by omega,
          lastEnd_add hpos hend]
      · rw [lastEnd_of_lt (Nat.not_le.mp hend)]
        have hgt : ¬lastOfChunk current chunk lo + 1 ≤ current := by
          rw [UInt64.le_iff_toNat_le]
          omega
        obtain ⟨m, rfl⟩ : ∃ m, n = m + 1 := ⟨n - 1, by omega⟩
        rw [planLoop, if_neg hgt]
        exact ⟨fun _ => by omega, fun _ => ⟨[], rfl⟩⟩

/-- The planner returns exactly when there is nothing to plan, or the chunks are not empty and the
last of them ends within 64 bits. -/
theorem plan_ok_iff (config : ContractConfig) (chainId current : UInt64)
    (checkpoint : Option UInt64) (chunk : UInt64) :
    (∃ p, plan config chainId current checkpoint chunk = .ok p) ↔
      current < checkpoint.getD config.startBlock ∨ (0 < chunk ∧
        lastEnd current.toNat chunk.toNat (checkpoint.getD config.startBlock).toNat < 2 ^ 64) := by
  unfold plan
  dsimp only
  by_cases hlt : current < checkpoint.getD config.startBlock
  · rw [if_pos hlt]
    exact ⟨fun _ => .inl hlt, fun _ => ⟨_, rfl⟩⟩
  · have hle : checkpoint.getD config.startBlock ≤ current := UInt64.not_lt.mp hlt
    have hle' := UInt64.le_iff_toNat_le.mp hle
    rw [if_neg hlt]
    simp only [hlt, false_or]
    have hmap (x : Except PlanFailure (List BlockRange)) (total : UInt64) :
        (∃ p, (x.map fun ranges => (⟨config.name, chainId, ranges, total⟩ : BackfillPlan)) =
          .ok p) ↔ ∃ ranges, x = .ok ranges := by
      cases x with
      | error e => simp [Except.map]
      | ok ranges => simp [Except.map]
    rw [hmap]
    by_cases hchunk : 0 < chunk
    · have hpos : 0 < chunk.toNat := UInt64.lt_iff_toNat_lt.mp hchunk
      rw [planLoop_ok_iff hpos (by omega) hle]
      exact ⟨fun h => ⟨hchunk, h⟩, fun h => h.2⟩
    · have hzero : chunk = 0 := by
        apply UInt64.toNat_inj.mp
        rw [UInt64.lt_iff_toNat_lt] at hchunk
        exact Nat.eq_zero_of_not_pos hchunk
      subst hzero
      constructor
      · intro ⟨ranges, h⟩
        exact absurd h (planLoop_zero _ hle ranges)
      · intro h
        exact absurd h.1 hchunk

theorem plan_chunked {config : ContractConfig} {chainId current : UInt64}
    {checkpoint : Option UInt64} {chunk : UInt64} {p : BackfillPlan}
    (h : plan config chainId current checkpoint chunk = .ok p)
    (hle : checkpoint.getD config.startBlock ≤ current) :
    Chunked chunk.toNat (checkpoint.getD config.startBlock).toNat current.toNat p.ranges ∧
      (checkpoint.getD config.startBlock).toNat + p.totalBlocks.toNat = current.toNat + 1 := by
  have hle' := UInt64.le_iff_toNat_le.mp hle
  rcases (plan_ok_iff config chainId current checkpoint chunk).mp ⟨p, h⟩ with hlt | ⟨hchunk, hend⟩
  · exact absurd hle (UInt64.not_le.mpr hlt)
  · have hpos : 0 < chunk.toNat := UInt64.lt_iff_toNat_lt.mp hchunk
    obtain ⟨-, hcur, -⟩ := lastEnd_bounds hpos hle'
    obtain ⟨-, ⟨hlt, -, -⟩ | ⟨-, hloop, htotal⟩⟩ := plan_cases h
    · exact absurd hle (UInt64.not_le.mpr hlt)
    · refine ⟨chunked_of_planLoop hle hloop, ?_⟩
      rw [htotal, UInt64.toNat_add, UInt64.toNat_sub_of_le _ _ hle, UInt64.toNat_one]
      omega

/-- The planner partitions the block interval. -/
theorem plan_partitions (config : ContractConfig) (chainId current : UInt64)
    (checkpoint : Option UInt64) {chunk : UInt64} (hchunk : 1 ≤ chunk)
    (hroom : current.toNat + chunk.toNat < 2 ^ 64) :
    ∃ p, plan config chainId current checkpoint chunk = .ok p ∧
      (checkpoint.getD config.startBlock ≤ current →
        Partitions (checkpoint.getD config.startBlock) current chunk p.ranges ∧
          p.totalBlocks.toNat = (p.ranges.map fun r => r.len.toNat).sum) ∧
      (current < checkpoint.getD config.startBlock → p.ranges = [] ∧ p.totalBlocks = 0) := by
  have hpos : 0 < chunk.toNat := UInt64.le_iff_toNat_le.mp hchunk
  have hreturns : current < checkpoint.getD config.startBlock ∨ (0 < chunk ∧
      lastEnd current.toNat chunk.toNat (checkpoint.getD config.startBlock).toNat < 2 ^ 64) := by
    by_cases hlt : current < checkpoint.getD config.startBlock
    · exact .inl hlt
    · have hle := UInt64.le_iff_toNat_le.mp (UInt64.not_lt.mp hlt)
      obtain ⟨-, -, hend⟩ := lastEnd_bounds hpos hle
      exact .inr ⟨UInt64.lt_iff_toNat_lt.mpr hpos, by omega⟩
  obtain ⟨p, hp⟩ := (plan_ok_iff config chainId current checkpoint chunk).mpr hreturns
  refine ⟨p, hp, ?_, ?_⟩
  · intro hle
    obtain ⟨hchunked, htotal⟩ := plan_chunked hp hle
    have hsum := hchunked.sum_len hpos chunk.toNat_lt
    exact ⟨hchunked.partitions hpos, by omega⟩
  · intro hlt
    obtain ⟨-, ⟨-, hnil, htotal⟩ | ⟨hle, -, -⟩⟩ := plan_cases hp
    · exact ⟨hnil, htotal⟩
    · exact absurd hle (UInt64.not_le.mpr hlt)

theorem plan_partitions_seven :
    ∃ p, plan ⟨"Token", 0⟩ 1 10 (some 4) 3 = .ok p ∧
      p.ranges = [⟨4, 6⟩, ⟨7, 9⟩, ⟨10, 10⟩] ∧ Partitions 4 10 3 p.ranges := by
  obtain ⟨p, hp, hparts, -⟩ := plan_partitions ⟨"Token", 0⟩ 1 10 (some 4)
    (show (1 : UInt64) ≤ 3 by decide) (by decide)
  have hrun : plan ⟨"Token", 0⟩ 1 10 (some 4) 3 =
      .ok ⟨"Token", 1, [⟨4, 6⟩, ⟨7, 9⟩, ⟨10, 10⟩], 7⟩ := by decide
  have hpeq := Except.ok.inj (hp.symm.trans hrun)
  exact ⟨p, hp, by rw [hpeq], (hparts (by decide)).1⟩

end ForgeIndex
