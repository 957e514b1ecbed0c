import Mathlib.Data.List.DropRight
import ForgeIndex.Db.Flush
import ForgeIndex.Db.Reorg
import ForgeIndex.Sync.Types

/-!
# Handling a reorg

`forge-index-sync/src/reorg/handler.rs`, and the run of blocks that leads up to it.  The flush
path records nothing in the shadow tables, so `handle_reorg` finds nothing to replay; the tables
are back where they were only if the orphaned blocks left them alone.
-/

namespace ForgeIndex

variable {V : Type} [DecidableEq V]

/-- The part of `ReorgHandler` that `handle_reorg` reads: table name, key column and columns. -/
structure ReorgHandler where
  tables : List (String × String × List String)

/-- The loop body of the rollback. -/
def ReorgHandler.rollbackTable (env : Env V) (forkBlock : UInt64) (totalAffected : ℕ)
    (t : String × String × List String) : Proc (World V) SyncError ℕ := do
  let affected ← (ReorgStore.rollbackFromBlock env t.1 forkBlock t.2.1 t.2.2).mapErr
    SyncError.database
  pure (totalAffected + affected)

/-- `ReorgHandler::handle_reorg`.  The number of blocks in its log line is a checked
subtraction. -/
def ReorgHandler.handleReorg (h : ReorgHandler) (b : WriteBuffer) (env : Env V)
    (_chainId forkBlock newTip : UInt64) : Proc (World V) SyncError ℕ := do
  let _ ← (b.flushAll env).mapErr SyncError.database
  let totalAffected ← Proc.foldEach (ReorgHandler.rollbackTable env forkBlock) 0 h.tables
  if newTip < forkBlock ∨ newTip.toNat - forkBlock.toNat + 1 = 2 ^ 64 then Proc.stop
  else pure totalAffected

/-- The handler for the tables of a schema. -/
def ReorgHandler.ofSchema (s : Schema) : ReorgHandler :=
  ⟨s.tables.filterMap fun d => d.pk.map fun pk => (d.name, pk, d.columnNames)⟩

/-- A block and what its handlers write, in order. -/
structure BlockWrites where
  number : UInt64
  writes : List Write

/-- A handler's write; whatever becomes of an error, the block goes on. -/
def tryWrite (b : WriteBuffer) (x : Write) : Proc (World V) DbError Unit :=
  Proc.ignore (x.execute b)

/-- The handler calls of one block and the `flush_all` after them. -/
def processBlock (b : WriteBuffer) (env : Env V) (block : BlockWrites) :
    Proc (World V) DbError Unit := do
  Proc.forEach (tryWrite b) block.writes
  let _ ← b.flushAll env
  pure ()

def processBlocks (b : WriteBuffer) (env : Env V) (blocks : List BlockWrites) :
    Proc (World V) DbError Unit :=
  Proc.forEach (processBlock b env) blocks

/-- A buffered row that changes no row of a table: an insert that meets a conflicting row, an
update that sets what is there already, a delete of an absent key. -/
def Row.Idle (env : Env V) (d : TableDef) (pk : String) (t : Table V) (r : Row) : Prop :=
  match r.kind with
  | .insert => t.any (conflicts d.uniqueSets
      (tupleOf env d.name d.columnNames (d.columnNames.map r.literal))) = true
  | .update => ∀ s ∈ t, matchesKey env d.name pk (r.literal pk) s = true →
      setColumns env d.name (WriteBuffer.updateSets d.columnNames pk r) s = s
  | .delete => ∀ s ∈ t, matchesKey env d.name pk (r.literal pk) s = false

/-- The row is idle for the table it is written to; a table outside the schema has no rows to
change. -/
def Idle (env : Env V) (T : String → Table V) (table : String) (r : Row) : Prop :=
  ∀ d, env.schema.find table = some d → ∀ pk, d.pk = some pk → r.Idle env d pk (T table)

theorem foldl_insertRow_of_conflicts (uniques : List (List String)) (t : Table V)
    (rs : List (Tuple V)) (h : ∀ r ∈ rs, t.any (conflicts uniques r) = true) :
    rs.foldl (insertRow uniques) t = t := by
  induction rs with
  | nil => rfl
  | cons r rs ih =>
    have hr : insertRow uniques t r = t := if_pos (h r List.mem_cons_self)
    rw [List.foldl_cons, hr]
    exact ih fun s hs => h s (List.mem_cons_of_mem _ hs)

section IdleStmts

variable {env : Env V} {T : String → Table V} {d : TableDef} {pk : String} {rows : List Row}
  {table : String} {t : Table V}

theorem effect_insertStmt_idle (hfind : env.schema.find d.name = some d)
    (hidle : ∀ r ∈ WriteBuffer.ofKind .insert rows, r.Idle env d pk (T d.name))
    (heff : (WriteBuffer.insertStmt d.name d.columnNames (WriteBuffer.ofKind .insert rows)).effect
      env T = some (table, t)) : t = T table := by
  obtain ⟨d', hd', rfl, rfl, -⟩ := effect_insert heff
  rw [hfind] at hd'
  cases hd'
  apply foldl_insertRow_of_conflicts
  intro r hr
  obtain ⟨v, hv, rfl⟩ := List.mem_map.mp hr
  obtain ⟨row, hrow, rfl⟩ := List.mem_map.mp hv
  have h := hidle row hrow
  rw [Row.Idle, WriteBuffer.kind_of_mem_ofKind hrow] at h
  exact h

theorem effect_updateStmt_idle {row : Row} (hkind : row.kind = .update)
    (hidle : row.Idle env d pk (T d.name))
    (heff : (Stmt.update d.name (WriteBuffer.updateSets d.columnNames pk row) pk
      (row.literal pk)).effect env T = some (table, t)) : t = T table := by
  obtain ⟨rfl, rfl⟩ := effect_update heff
  rw [Row.Idle, hkind] at hidle
  refine (List.map_congr_left fun s hs => ?_).trans (List.map_id _)
  split_ifs with hm
  · exact hidle s hs hm
  · rfl

theorem effect_deleteStmt_idle
    (hidle : ∀ r ∈ WriteBuffer.ofKind .delete rows, r.Idle env d pk (T d.name))
    (heff : (Stmt.delete d.name pk (WriteBuffer.deleteKeys pk (WriteBuffer.ofKind .delete
      rows))).effect env T = some (table, t)) : t = T table := by
  obtain ⟨rfl, rfl⟩ := effect_delete heff
  refine List.filter_eq_self.mpr fun s hs => ?_
  rw [Bool.not_eq_true', List.any_eq_false]
  intro lit hlit
  obtain ⟨row, hrow, hget⟩ := List.mem_filterMap.mp hlit
  have h := hidle row hrow
  rw [Row.Idle, WriteBuffer.kind_of_mem_ofKind hrow] at h
  have hlit' : row.literal pk = lit := by
    unfold Row.literal
    rw [hget]
    rfl
  rw [← hlit', h s hs]
  decide

theorem effect_flushStmts_idle (hs : validateSchema env.schema = []) {name : String}
    (hidle : ∀ r ∈ rows, Idle env T name r) {s : Stmt}
    (hmem : s ∈ WriteBuffer.flushStmts (WriteBuffer.new env.schema) name rows)
    (heff : s.effect env T = some (table, t)) : t = T table := by
  cases hfind : env.schema.find name with
  | none =>
    rw [WriteBuffer.flushStmts_of_find_none hfind] at hmem
    simp at hmem
  | some d =>
    obtain ⟨hd, rfl⟩ := mem_of_find hfind
    obtain ⟨pk, hpk⟩ := pk_of_validateSchema hs hd
    obtain ⟨hc, hp⟩ := WriteBuffer.new_of_mem hs hd hpk
    have hkind (k : Row.Kind) : ∀ r ∈ WriteBuffer.ofKind k rows, r.Idle env d pk (T d.name) :=
      fun r hr => hidle r (List.mem_of_mem_filter hr) d hfind pk hpk
    simp only [WriteBuffer.flushStmts, WriteBuffer.insertStmts, WriteBuffer.updateStmts,
      WriteBuffer.deleteStmts, hc, hp, List.mem_append] at hmem
    rcases hmem with hmem | hmem | hmem
    · split_ifs at hmem
      · simp at hmem
      · rw [List.mem_singleton.mp hmem] at heff
        exact effect_insertStmt_idle hfind (hkind .insert) heff
    · obtain ⟨row, hrow, hmem⟩ := List.mem_flatMap.mp hmem
      unfold WriteBuffer.updateStmt at hmem
      split_ifs at hmem
      · simp at hmem
      · rw [List.mem_singleton.mp hmem] at heff
        exact effect_updateStmt_idle (WriteBuffer.kind_of_mem_ofKind hrow) (hkind .update row hrow)
          heff
    · split_ifs at hmem
      · simp at hmem
      · rw [List.mem_singleton.mp hmem] at heff
        exact effect_deleteStmt_idle (hkind .delete) heff

end IdleStmts

section Quiet

variable {env : Env V} {T : String → Table V}

/-- The tables hold `T`, nothing is recorded, and only idle rows are buffered. -/
def Quiet (env : Env V) (T : String → Table V) (w : World V) : Prop :=
  ReorgStore.Unrecorded T w ∧ ∀ table, ∀ r ∈ WriteBuffer.rowsOf w table, Idle env T table r

theorem Quiet.insert {w : World V} (hw : Quiet env T w) {table : String} {rows : List Row}
    (hrows : ∀ r ∈ rows, Idle env T table r) :
    Quiet env T { w with buffers := w.buffers.insert table rows } := by
  refine ⟨hw.1, fun table' r hr => ?_⟩
  rw [WriteBuffer.rowsOf_insert] at hr
  split_ifs at hr with h
  · rw [h]
    exact hrows r hr
  · exact hw.2 table' r hr

theorem tryWrite_quiet (b : WriteBuffer) {x : Write} (hx : Idle env T x.table x.row) :
    Proc.Triple (Quiet env T) (tryWrite b x) (fun _ => Quiet env T) (Quiet env T) := by
  apply Proc.Triple.ignore_invariant
  apply Write.execute_triple
  · intro w hw
    refine hw.insert fun r hr => ?_
    rcases List.mem_append.mp hr with hr | hr
    · exact hw.2 _ r hr
    · rw [List.mem_singleton.mp hr]
      exact hx
  · exact fun w hw => hw.insert fun r hr => hw.2 _ r hr

theorem flushAll_quiet (hs : validateSchema env.schema = []) :
    Proc.Triple (Quiet env T) ((WriteBuffer.new env.schema).flushAll env)
      (fun _ => Quiet env T) (Quiet env T) := by
  have htable (table : String) : Proc.Triple (Quiet env T)
      ((WriteBuffer.new env.schema).flushTable env table) (fun _ => Quiet env T)
      (Quiet env T) := by
    refine WriteBuffer.flushTable_triple
      (R := fun rows w => (∀ r ∈ rows, Idle env T table r) ∧ Quiet env T w) ?_ ?_ ?_ ?_
    · exact fun w hw _ => hw
    · exact fun w hw _ => hw.insert fun r hr => by simp at hr
    · intro w rows hw hget
      refine ⟨fun r hr => hw.2 table r ?_, hw.insert fun r hr => by simp at hr⟩
      unfold WriteBuffer.rowsOf
      rw [hget]
      exact hr
    · intro rows _ w ⟨hidle, hw⟩
      have hexec : Proc.Triple (Quiet env T) (WriteBuffer.executeAll env table
          (WriteBuffer.flushStmts (WriteBuffer.new env.schema) table rows))
          (fun _ => Quiet env T) (Quiet env T) := by
        refine WriteBuffer.executeAll_triple fun s hmem => ?_
        refine execute_triple env s (fun w hw => hw) fun w table' t hw heff => ?_
        rw [hw.1.1] at heff ⊢
        rw [effect_flushStmts_idle hs hidle hmem heff, Function.update_eq_self]
        exact ⟨⟨rfl, hw.1.2⟩, hw.2⟩
      exact hexec w hw
  refine (WriteBuffer.flushAll_triple (I := fun _ _ => Quiet env T) (fun w hw => hw)
    fun _ _ table _ _ => htable table).conseq (fun _ h => h) ?_ fun _ h => h
  exact fun _ _ ⟨_, h⟩ => h

theorem processBlocks_quiet (hs : validateSchema env.schema = []) {blocks : List BlockWrites}
    (hidle : ∀ block ∈ blocks, ∀ x ∈ block.writes, Idle env T x.table x.row) :
    Proc.Triple (Quiet env T) (processBlocks (WriteBuffer.new env.schema) env blocks)
      (fun _ => Quiet env T) (Quiet env T) := by
  refine Proc.Triple.forEach (I := fun _ => Quiet env T) fun pre block post hpre => ?_
  have hblock := hidle block (by simp [hpre])
  have hwrites : Proc.Triple (Quiet env T)
      (Proc.forEach (tryWrite (WriteBuffer.new env.schema)) block.writes)
      (fun _ => Quiet env T) (Quiet env T) :=
    Proc.Triple.forEach (I := fun _ => Quiet env T) fun pre x post hpre =>
      tryWrite_quiet _ (hblock x (by simp [hpre]))
  exact hwrites.bind fun _ => (flushAll_quiet hs).bind fun _ => Proc.Triple.pure fun _ hw => hw

theorem handleReorg_quiet (hs : validateSchema env.schema = []) (h : ReorgHandler)
    (chainId forkBlock newTip : UInt64) :
    Proc.Triple (Quiet env T) (h.handleReorg (WriteBuffer.new env.schema) env chainId forkBlock
      newTip) (fun _ w => w.tables = T) (fun w => w.tables = T) := by
  have hflush := (flushAll_quiet (T := T) hs).mapErr (g := SyncError.database)
  have hroll : Proc.Triple (ReorgStore.Unrecorded T)
      (Proc.foldEach (ReorgHandler.rollbackTable env forkBlock) 0 h.tables)
      (fun _ => ReorgStore.Unrecorded T) (ReorgStore.Unrecorded T) :=
    Proc.Triple.foldEach (I := fun _ _ => ReorgStore.Unrecorded T) 0 fun pre t post _ _ =>
      ((ReorgStore.rollbackFromBlock_triple env t.1 forkBlock t.2.1 t.2.2 T).mapErr).bind
        fun _ => Proc.Triple.pure fun _ hw => hw.2
  refine (hflush.conseq (fun _ h => h) (fun _ _ h => h.1) fun _ h => h.1.1).bind fun _ => ?_
  refine (hroll.conseq (fun _ h => h) (fun _ _ h => h) fun _ h => h.1).bind fun _ => ?_
  split_ifs
  · exact fun w hw => hw.1
  · exact Proc.Triple.pure fun w hw => hw.1

end Quiet

/-- Nothing is recorded and nothing is buffered. -/
def Settled (w : World V) : Prop :=
  (∀ table, w.shadow table = []) ∧ ∀ table, WriteBuffer.rowsOf w table = []

/-- A processed block leaves nothing in the buffer, and nothing in the shadow tables: no part of
the write path calls `record_flush`. -/
theorem processBlock_settled (b : WriteBuffer) (env : Env V) (block : BlockWrites) :
    Proc.Triple Settled (processBlock b env block) (fun _ => Settled)
      (fun w => ∀ table, w.shadow table = []) := by
  have hwrite (x : Write) : Proc.Triple (fun w : World V => ∀ table, w.shadow table = [])
      (tryWrite b x) (fun _ w => ∀ table, w.shadow table = [])
      (fun w => ∀ table, w.shadow table = []) := by
    apply Proc.Triple.ignore_invariant
    apply Write.execute_triple
    · exact fun _ hw => hw
    · exact fun _ hw => hw
  have hwrites := Proc.Triple.forEach (I := fun _ (w : World V) => ∀ table, w.shadow table = [])
    fun (pre : List Write) x (post : List Write) (_ : block.writes = pre ++ x :: post) => hwrite x
  have hflush := WriteBuffer.flushAll_frame b env
    (I := fun w : World V => ∀ table, w.shadow table = []) fun _ _ _ _ _ _ hw => hw
  exact (hwrites.conseq (fun _ hw => hw.1) (fun _ _ hw => hw) fun _ hw => hw).bind fun _ =>
    hflush.bind fun _ => Proc.Triple.pure fun _ hw => hw

theorem processBlocks_settled (b : WriteBuffer) (env : Env V) (blocks : List BlockWrites) :
    Proc.Triple Settled (processBlocks b env blocks) (fun _ => Settled)
      (fun w => ∀ table, w.shadow table = []) :=
  Proc.Triple.forEach (I := fun _ => Settled) fun _ block _ _ => processBlock_settled b env block

/-- The run up to the last block below the fork. -/
def keptBlocks (forkBlock : UInt64) (blocks : List BlockWrites) : List BlockWrites :=
  blocks.rdropWhile fun x => decide (forkBlock ≤ x.number)

/-- The rest of the run: the blocks that the reorg takes back. -/
def orphanedBlocks (forkBlock : UInt64) (blocks : List BlockWrites) : List BlockWrites :=
  blocks.rtakeWhile fun x => decide (forkBlock ≤ x.number)

theorem keptBlocks_append_orphanedBlocks (forkBlock : UInt64) (blocks : List BlockWrites) :
    keptBlocks forkBlock blocks ++ orphanedBlocks forkBlock blocks = blocks :=
  List.rdropWhile_append_rtakeWhile

/-- In a run whose orphaned blocks only write idle rows, `handle_reorg` ends with the tables of
the last block below the fork. -/
theorem handleReorg_restores {env : Env V} (hs : validateSchema env.schema = [])
    {h : ReorgHandler} {blocks : List BlockWrites} {chainId forkBlock newTip : UInt64}
    {w₀ w₁ w₂ w₃ : World V} {n : ℕ} (hstart : Settled w₀)
    (hkept : processBlocks (WriteBuffer.new env.schema) env (keptBlocks forkBlock blocks) w₀ =
      (.ok (), w₁))
    (hrun : processBlocks (WriteBuffer.new env.schema) env blocks w₀ = (.ok (), w₂))
    (hidle : ∀ block ∈ orphanedBlocks forkBlock blocks, ∀ x ∈ block.writes,
      Idle env w₁.tables x.table x.row)
    (hreorg : h.handleReorg (WriteBuffer.new env.schema) env chainId forkBlock newTip w₂ =
      (.ok n, w₃)) :
    w₃.tables = w₁.tables := by
  have hsettled : Settled w₁ := (processBlocks_settled _ env _).of_ok hstart hkept
  have hquiet : Quiet env w₁.tables w₁ := by
    refine ⟨⟨rfl, hsettled.1⟩, fun table r hr => ?_⟩
    rw [hsettled.2 table] at hr
    simp at hr
  have hrest : processBlocks (WriteBuffer.new env.schema) env (orphanedBlocks forkBlock blocks) w₁ =
      (.ok (), w₂) := by
    rw [← keptBlocks_append_orphanedBlocks forkBlock blocks, processBlocks,
      Proc.forEach_append] at hrun
    obtain ⟨_, w, hfirst, hrest⟩ := Proc.bind_ok_iff.mp hrun
    rw [processBlocks, hfirst] at hkept
    cases hkept
    exact hrest
  have hquiet₂ : Quiet env w₁.tables w₂ := (processBlocks_quiet hs hidle).of_ok hquiet hrest
  exact (handleReorg_quiet hs h chainId forkBlock newTip).of_ok hquiet₂ hreorg

/-- A block whose handler inserts one account. -/
def accountBlock (number : UInt64) (id balance : String) : BlockWrites :=
  ⟨number, [.insert "accounts" (accountRow id balance)]⟩

theorem settled_fresh : Settled (World.fresh String) := ⟨fun _ => rfl, fun _ => rfl⟩

/-- The orphaned block inserts an account that exists already. -/
theorem handleReorg_restores_existing :
    let env := plainEnv ⟨[accountsTable]⟩
    let b := WriteBuffer.new env.schema
    let blocks := [accountBlock 99 "a" "5", accountBlock 100 "a" "7"]
    let w₂ := (processBlocks b env blocks (World.fresh String)).2
    ((ReorgHandler.ofSchema env.schema).handleReorg b env 1 100 101 w₂).2.tables =
      (processBlocks b env (keptBlocks 100 blocks) (World.fresh String)).2.tables := by
  intro env b blocks w₂
  have hs : validateSchema env.schema = [] := by decide
  have hkept : (processBlocks b env (keptBlocks 100 blocks) (World.fresh String)).1 = .ok () := by
    decide +kernel
  have hrun : (processBlocks b env blocks (World.fresh String)).1 = .ok () := by decide +kernel
  have hreorg : ((ReorgHandler.ofSchema env.schema).handleReorg b env 1 100 101 w₂).1 = .ok 0 := by
    decide +kernel
  have hkept' := Proc.eq_ok_of_fst hkept
  have hrun' := Proc.eq_ok_of_fst hrun
  have hreorg' := Proc.eq_ok_of_fst hreorg
  apply handleReorg_restores hs settled_fresh hkept' hrun' _ hreorg'
  intro block hblock x hx d hd pk hpk
  rw [List.mem_singleton.mp hblock] at hx
  rw [List.mem_singleton.mp hx] at hd ⊢
  cases hd
  cases hpk
  show List.any _ _ = true
  decide +kernel

/-- A reorg does not restore the tables after a run of one block that inserts one row: the row is
still there when `handle_reorg` has returned. -/
theorem handleReorg_not_restores :
    ¬∀ (env : Env String) (blocks : List BlockWrites) (chainId forkBlock newTip : UInt64)
      (w₀ w₁ w₂ w₃ : World String) (n : ℕ),
      validateSchema env.schema = [] → (∀ i, env.fate i = .executed) → Settled w₀ →
      processBlocks (WriteBuffer.new env.schema) env (keptBlocks forkBlock blocks) w₀ =
        (.ok (), w₁) →
      processBlocks (WriteBuffer.new env.schema) env blocks w₀ = (.ok (), w₂) →
      (ReorgHandler.ofSchema env.schema).handleReorg (WriteBuffer.new env.schema) env chainId
        forkBlock newTip w₂ = (.ok n, w₃) →
      w₃.tables = w₁.tables := by
  intro h
  let env := plainEnv ⟨[accountsTable]⟩
  let b := WriteBuffer.new env.schema
  let blocks := [accountBlock 100 "a" "5"]
  let w₀ := World.fresh String
  let w₂ := (processBlocks b env blocks w₀).2
  have hkept : (processBlocks b env (keptBlocks 100 blocks) w₀).1 = .ok () := by decide +kernel
  have hrun : (processBlocks b env blocks w₀).1 = .ok () := by decide +kernel
  have hreorg : ((ReorgHandler.ofSchema env.schema).handleReorg b env 1 100 101 w₂).1 = .ok 0 := by
    decide +kernel
  have htables := h env blocks 1 100 101 w₀ _ _ _ 0 (by decide) (fun _ => rfl) settled_fresh
    (Proc.eq_ok_of_fst hkept) (Proc.eq_ok_of_fst hrun) (Proc.eq_ok_of_fst hreorg)
  have hrows := congrArg List.length (congrFun htables "accounts")
  revert hrows
  decide +kernel

end ForgeIndex
