import ForgeIndex.Db.Rollback
import ForgeIndex.Lib.StableSort
import ForgeIndex.Lib.TwoRuns

/-!
# Rollbacks after rollbacks

A rollback from a block replays the rows that a rollback from a later block replays, and then the
rows that the later one leaves.  So rollbacks compose, and pruning below the block takes nothing
from them.
-/

namespace ForgeIndex

variable {V : Type}

/-- Rows of one block come back in a fixed order, which the removal of other rows does not change. -/
def FixedOrder (env : Env V) : Prop :=
  ∀ n m (rows : List (ShadowRow V)) (keep : ShadowRow V → Bool) (k : Int64),
    (env.scan n (rows.filter keep)).filter (fun s => s.blockNumber = k) =
      (env.scan m rows).filter fun s => keep s && decide (s.blockNumber = k)

theorem FixedOrder.scan_eq {env : Env V} (h : FixedOrder env) (n m : ℕ) (rows : List (ShadowRow V))
    (k : Int64) : (env.scan n rows).filter (fun s => s.blockNumber = k) =
      (env.scan m rows).filter fun s => s.blockNumber = k := by
  have hall := h n m rows (fun _ => true) k
  rw [List.filter_eq_self.mpr fun _ _ => rfl] at hall
  simpa only [Bool.true_and] using hall

namespace ReorgStore

section Select

variable {b b₀ b₁ f k : Int64} {rows : List (ShadowRow V)}

theorem tied_iff_blockNumber {s s' : ShadowRow V} :
    List.tied (fun s s' : ShadowRow V => s'.blockNumber ≤ s.blockNumber) s s' = true ↔
      s'.blockNumber = s.blockNumber := by
  rw [List.tied_iff]
  constructor
  · intro h
    apply Int64.toInt_inj.mp
    have h₁ := Int64.le_iff_toInt_le.mp h.1
    have h₂ := Int64.le_iff_toInt_le.mp h.2
    omega
  · intro h
    rw [h]
    exact ⟨Int64.le_refl _, Int64.le_refl _⟩

theorem filter_tied (l : List (ShadowRow V)) (s : ShadowRow V) :
    l.filter (List.tied (fun s s' : ShadowRow V => s'.blockNumber ≤ s.blockNumber) s) =
      l.filter fun s' => s'.blockNumber = s.blockNumber := by
  apply List.filter_congr
  intro s' _
  rw [Bool.eq_iff_iff, tied_iff_blockNumber, decide_eq_true_eq]

theorem filter_selectRows (b k : Int64) (rows : List (ShadowRow V)) :
    (selectRows b rows).filter (fun s => s.blockNumber = k) =
      if b ≤ k then rows.filter fun s => s.blockNumber = k else [] := by
  by_cases hex : ∃ s ∈ selectRows b rows, s.blockNumber = k
  · obtain ⟨s, hs, rfl⟩ := hex
    have hmem := (List.perm_insertionSort _ _).mem_iff.mp hs
    have hle : b ≤ s.blockNumber := by simpa using (List.mem_filter.mp hmem).2
    rw [if_pos hle, ← filter_tied]
    unfold selectRows
    rw [List.filter_tied_insertionSort, filter_tied, List.filter_filter]
    apply List.filter_congr
    intro s' _
    by_cases hk : s'.blockNumber = s.blockNumber
    · simp [hk, hle]
    · simp [hk]
  · have hnil : (selectRows b rows).filter (fun s => s.blockNumber = k) = [] := by
      rw [List.filter_eq_nil_iff]
      intro s hs hk
      exact hex ⟨s, hs, by simpa using hk⟩
    rw [hnil]
    split_ifs with hle
    · symm
      rw [List.filter_eq_nil_iff]
      intro s hs hk
      have hk' : s.blockNumber = k := by simpa using hk
      refine hex ⟨s, (List.perm_insertionSort _ _).mem_iff.mpr (List.mem_filter.mpr ⟨hs, ?_⟩), hk'⟩
      simpa [hk'] using hle
    · rfl

theorem eq_selectRows {l : List (ShadowRow V)}
    (hsorted : l.Pairwise fun s s' => s'.blockNumber ≤ s.blockNumber)
    (hblocks : ∀ k, l.filter (fun s => s.blockNumber = k) =
      if b ≤ k then rows.filter fun s => s.blockNumber = k else []) : l = selectRows b rows := by
  apply List.eq_of_filter_tied hsorted (List.pairwise_insertionSort _ _)
  intro s
  rw [filter_tied, filter_tied, hblocks, ← filter_selectRows]
  rfl

theorem le_of_mem_selectRows {s : ShadowRow V} (hs : s ∈ selectRows b rows) :
    b ≤ s.blockNumber ∧ s ∈ rows := by
  have hmem := List.mem_filter.mp ((List.perm_insertionSort _ _).mem_iff.mp hs)
  exact ⟨by simpa using hmem.2, hmem.1⟩

variable {env : Env V}

/-- What a rollback replays is what a rollback from a later block replays, followed by what is left
for it then. -/
theorem selectRows_append (horder : FixedOrder env) (hle : b₀ ≤ b₁) (n₁ n₂ n₃ : ℕ) :
    selectRows b₁ (env.scan n₁ rows) ++
        selectRows b₀ (env.scan n₂ (rows.filter fun s => !decide (b₁ ≤ s.blockNumber))) =
      selectRows b₀ (env.scan n₃ rows) := by
  apply eq_selectRows
  · refine List.pairwise_append.mpr ⟨List.pairwise_insertionSort _ _,
      List.pairwise_insertionSort _ _, fun s hs s' hs' => ?_⟩
    have hs := (le_of_mem_selectRows hs).1
    have hs' := (env.scan_perm _ _).mem_iff.mp (le_of_mem_selectRows hs').2
    have hlt := (List.mem_filter.mp hs').2
    simp only [Bool.not_eq_true', decide_eq_false_iff_not, Int64.not_le] at hlt
    exact Int64.le_trans (Int64.le_of_lt hlt) hs
  · intro k
    rw [List.filter_append, filter_selectRows, filter_selectRows, horder n₂ n₃,
      horder.scan_eq n₁ n₃]
    by_cases hk : b₁ ≤ k
    · have hnone : ((env.scan n₃ rows).filter fun s =>
          !decide (b₁ ≤ s.blockNumber) && decide (s.blockNumber = k)) = [] := by
        rw [List.filter_eq_nil_iff]
        intro s _
        simp only [Bool.and_eq_true, Bool.not_eq_true', decide_eq_false_iff_not, decide_eq_true_eq]
        rintro ⟨hno, rfl⟩
        exact hno hk
      simp only [if_pos hk, if_pos (Int64.le_trans hle hk), hnone, List.append_nil]
    · rw [if_neg hk, List.nil_append]
      congr 1
      apply List.filter_congr
      intro s _
      by_cases hs : s.blockNumber = k
      · simp [hs, hk]
      · simp [hs]

theorem selectRows_pruned (horder : FixedOrder env) (hle : f ≤ b) (n m : ℕ) :
    selectRows b (env.scan n (rows.filter fun s => !decide (s.blockNumber < f))) =
      selectRows b (env.scan m rows) := by
  apply eq_selectRows (List.pairwise_insertionSort _ _)
  intro k
  rw [show List.insertionSort _ _ = selectRows b _ from rfl, filter_selectRows, horder n m]
  split_ifs with hk
  · apply List.filter_congr
    intro s _
    by_cases hs : s.blockNumber = k
    · have hge : ¬k < f := Int64.not_lt.mpr (Int64.le_trans hle hk)
      simp [hs, hge]
    · simp [hs]
  · rfl

end Select

variable [DecidableEq V] {env : Env V} {table pkCol : String} {columns : List String}

/-- A statement that goes through changes the tables in a way that they determine. -/
theorem determined_execute (env : Env V) (s : Stmt) :
    Proc.Determined World.tables (execute env s) := by
  intro w w' _ _ t t' hw h h'
  obtain ⟨name, rows, he, ht⟩ := execute_ok h
  obtain ⟨name', rows', he', ht'⟩ := execute_ok h'
  rw [hw, he'] at he
  cases he
  rw [ht, ht']
  dsimp only
  rw [hw]
  exact ⟨rfl, rfl⟩

theorem determined_replayRow (s : ShadowRow V) :
    Proc.Determined World.tables (replayRow env table pkCol columns s) := by
  unfold replayRow
  split
  · unfold replayDelete
    split
    · exact Proc.Determined.stop
    · exact (determined_execute env _).mapErr
  · exact (determined_execute env _).mapErr
  · unfold replayUpdate
    split
    · exact Proc.Determined.stop
    · split_ifs
      · exact Proc.Determined.pure ()
      · exact (determined_execute env _).mapErr
  · exact Proc.Determined.pure ()

theorem toInt64_le {a b : UInt64} (hb : b.toNat < 2 ^ 63) (hle : a ≤ b) : a.toInt64 ≤ b.toInt64 := by
  rw [UInt64.le_iff_toNat_le] at hle
  rw [Int64.le_iff_toInt_le, toInt_toInt64 hb, toInt_toInt64 (by omega)]
  omega

theorem rollback_rollback (horder : FixedOrder env) {b₀ b₁ : UInt64} (hb₁ : b₁.toNat < 2 ^ 63)
    (hle : b₀ ≤ b₁) :
    Proc.Alike (fun w : World V => (w.tables, w.shadow))
      (do
        let _ ← rollbackFromBlock env table b₁ pkCol columns
        rollbackFromBlock env table b₀ pkCol columns)
      (rollbackFromBlock env table b₀ pkCol columns) := by
  intro w n n' w₂ w₃ htwice honce
  obtain ⟨m, w₁, hlater, hearlier⟩ := Proc.bind_ok_iff.mp htwice
  have hle' := toInt64_le hb₁ hle
  obtain ⟨u₁, hloop₁, htables₁, hshadow₁⟩ := rollbackFromBlock_ok hlater
  obtain ⟨u₂, hloop₂, htables₂, hshadow₂⟩ := rollbackFromBlock_ok hearlier
  obtain ⟨u₃, hloop₃, htables₃, hshadow₃⟩ := rollbackFromBlock_ok honce
  have hleft : w₁.shadow table =
      (w.shadow table).filter fun s => !decide (b₁.toInt64 ≤ s.blockNumber) := by
    rw [hshadow₁, Function.update_self]
  rw [hleft] at hloop₂ hshadow₂
  -- the single run replays the rows of both, one after the other
  rw [← selectRows_append horder hle' (w.clock + 1) (w₁.clock + 1), Proc.forEach_append] at hloop₃
  obtain ⟨_, u, hfirst, hsecond⟩ := Proc.bind_ok_iff.mp hloop₃
  rw [hloop₁] at hfirst
  cases hfirst
  have hsame : u₂.tables = u₃.tables :=
    (Proc.Determined.forEach determined_replayRow _).agree hloop₂ hsecond htables₁
  refine Prod.ext ?_ ?_
  · exact htables₂.trans (hsame.trans htables₃.symm)
  · dsimp only
    rw [hshadow₂, hshadow₃, hshadow₁, Function.update_idem, List.filter_filter]
    congr 1
    apply List.filter_congr
    intro s _
    by_cases hs : b₀.toInt64 ≤ s.blockNumber
    · simp [hs]
    · have hs₁ : ¬b₁.toInt64 ≤ s.blockNumber := fun h => hs (Int64.le_trans hle' h)
      simp [hs, hs₁]

theorem clear_rollback (horder : FixedOrder env) {f b : UInt64} (hb : b.toNat < 2 ^ 63)
    (hle : f ≤ b) :
    Proc.Alike World.tables
      (do
        clearBeforeBlock env table f
        rollbackFromBlock env table b pkCol columns)
      (rollbackFromBlock env table b pkCol columns) := by
  intro w n n' w₂ w₃ hpruned honce
  obtain ⟨_, w₁, hclear, hrollback⟩ := Proc.bind_ok_iff.mp hpruned
  obtain ⟨_, w₀, hsend, hdelete⟩ := Proc.bind_ok_iff.mp (Proc.mapErr_ok_iff.mp hclear)
  rw [send_ok hsend] at hdelete
  cases hdelete
  obtain ⟨u₂, hloop₂, htables₂, -⟩ := rollbackFromBlock_ok hrollback
  obtain ⟨u₃, hloop₃, htables₃, -⟩ := rollbackFromBlock_ok honce
  dsimp only at hloop₂
  rw [Function.update_self, selectRows_pruned horder (toInt64_le hb hle) _ (w.clock + 1)] at hloop₂
  have hsame : u₂.tables = u₃.tables :=
    (Proc.Determined.forEach determined_replayRow _).agree hloop₂ hloop₃ rfl
  exact htables₂.trans (hsame.trans htables₃.symm)

/-- Rollbacks compose, a second one from the same block changes nothing, and pruning up to the block
does not change what a rollback makes of the tables. -/
theorem rollbackFromBlock_composes (horder : FixedOrder env) (table pkCol : String)
    (columns : List String) :
    (∀ b₀ b₁ : UInt64, b₁.toNat < 2 ^ 63 → b₀ ≤ b₁ →
      Proc.Alike (fun w : World V => (w.tables, w.shadow))
        (do
          let _ ← rollbackFromBlock env table b₁ pkCol columns
          rollbackFromBlock env table b₀ pkCol columns)
        (rollbackFromBlock env table b₀ pkCol columns)) ∧
    (∀ b : UInt64, b.toNat < 2 ^ 63 →
      Proc.Alike (fun w : World V => (w.tables, w.shadow))
        (do
          let _ ← rollbackFromBlock env table b pkCol columns
          rollbackFromBlock env table b pkCol columns)
        (rollbackFromBlock env table b pkCol columns)) ∧
    ∀ f b : UInt64, b.toNat < 2 ^ 63 → f ≤ b →
      Proc.Alike World.tables
        (do
          clearBeforeBlock env table f
          rollbackFromBlock env table b pkCol columns)
        (rollbackFromBlock env table b pkCol columns) :=
  ⟨fun _ _ hb hle => rollback_rollback horder hb hle,
    fun b hb => rollback_rollback horder hb (UInt64.le_refl b),
    fun _ _ hb hle => clear_rollback horder hb hle⟩

theorem fixedOrder_plainEnv (schema : Schema) : FixedOrder (plainEnv schema) := by
  intro _ _ rows keep k
  show (rows.filter keep).filter _ = rows.filter _
  rw [List.filter_filter]
  simp only [Bool.and_comm]

/-- Blocks 10 and 20 credit account `a`. -/
def creditedTwice : World String :=
  accountsAfter []
    (accountsAfter [] (accountsWorld [("a", "5")]) (accountChange 10 "a" (some "5") (some "6")) "5"
      [("a", "6")])
    (accountChange 20 "a" (some "6") (some "7")) "6" [("a", "7")]

/-- Block 20 is taken back and then block 10, or block 10 at once; or block 20, with and without
pruning up to block 15. -/
theorem rollbackFromBlock_composes_credited :
    let rollback := fun b => rollbackFromBlock (plainEnv ⟨[indexedAccounts []]⟩) "accounts" b "id"
      accountsTable.columnNames
    let clear := clearBeforeBlock (plainEnv ⟨[indexedAccounts []]⟩) "accounts" 15
    ((rollback 20 >>= fun _ => rollback 10) creditedTwice).2.tables =
        (rollback 10 creditedTwice).2.tables ∧
      ((rollback 20 >>= fun _ => rollback 10) creditedTwice).2.shadow =
        (rollback 10 creditedTwice).2.shadow ∧
      ((clear >>= fun _ => rollback 20) creditedTwice).2.tables =
        (rollback 20 creditedTwice).2.tables := by
  intro rollback clear
  have hcomposes := rollbackFromBlock_composes (fixedOrder_plainEnv ⟨[indexedAccounts []]⟩)
    "accounts" "id" accountsTable.columnNames
  have htwice : ((rollback 20 >>= fun _ => rollback 10) creditedTwice).1 = .ok 1 := by
    decide +kernel
  have honce : (rollback 10 creditedTwice).1 = .ok 2 := by decide +kernel
  have hpruned : ((clear >>= fun _ => rollback 20) creditedTwice).1 = .ok 1 := by decide +kernel
  have hlate : (rollback 20 creditedTwice).1 = .ok 1 := by decide +kernel
  have hsame := hcomposes.1 10 20 (by decide) (by decide) creditedTwice 1 2 _ _
    (Proc.eq_ok_of_fst htwice) (Proc.eq_ok_of_fst honce)
  have hkept := hcomposes.2.2 15 20 (by decide) (by decide) creditedTwice 1 1 _ _
    (Proc.eq_ok_of_fst hpruned) (Proc.eq_ok_of_fst hlate)
  obtain ⟨htables, hshadow⟩ := Prod.mk.inj hsame
  exact ⟨htables, hshadow, hkept⟩

end ReorgStore

end ForgeIndex
