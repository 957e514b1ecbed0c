import ForgeIndex.Db.Flush
import ForgeIndex.Lib.Custody

/-!
# Writers and flushers at the same time

The write buffer under any interleaving of `insert`, `update` and `delete` with `flush_table` and
`flush_all`, in the foreground or in the background.  A flush takes the rows of a table in one step
and executes them in a later one.  The operations on a table are numbered.
-/

namespace ForgeIndex

namespace WriteBuffer

/-- The row of an operation, with the number of the operation among those on its table. -/
abbrev Numbered := ℕ × Row

/-- A call of `flush_table` or `flush_all`: the tables that it still has to flush, and the rows
that it has taken from one. -/
structure FlushTask where
  tables : List String
  held : Option (String × List Numbered)

/-- The buffer, the flushes and what they have executed.  `issued` are the operations on a table
that returned `Ok`. -/
structure Shared where
  issued : String → List Row
  buffers : IndexMap String (List Numbered)
  flushes : List FlushTask
  executed : List (String × List Numbered)

namespace Shared

/-- Nothing has been written. -/
def initial : Shared := ⟨fun _ => [], IndexMap.empty, [], []⟩

/-- The rows buffered for a table. -/
def buffered (s : Shared) (table : String) : List Numbered := (s.buffers.get table).getD []

/-- `entry.push(row)`. -/
def push (s : Shared) (table : String) (row : Row) : Shared :=
  { s with
    issued := Function.update s.issued table (s.issued table ++ [row])
    buffers := s.buffers.insert table (s.buffered table ++ [((s.issued table).length, row)]) }

end Shared

/-- One step of a writer or of a flush.  `flush_all` walks the map while others write to it, so the
tables of a flush are left open. -/
inductive SharedAction where
  | insert (table : String) (row : Row)
  | update (table : String) (row : Row) (pkValue : ColumnValue)
  | delete (table pkCol : String) (pkValue : ColumnValue)
  | flush (tables : List String)
  | take (k : ℕ)
  | execute (k : ℕ)

/-- What a step does. -/
def sharedStep (b : WriteBuffer) (s : Shared) : SharedAction → Shared
  | .insert table row =>
    if b.maxSize ≤ (s.buffered table).length then
      { s with buffers := s.buffers.insert table (s.buffered table) }
    else s.push table row
  | .update table row _ => s.push table { row with operation := some "UPDATE" }
  | .delete table pkCol pkValue =>
    s.push table { Row.new.insert pkCol pkValue with operation := some "DELETE" }
  | .flush tables => { s with flushes := s.flushes ++ [⟨tables, none⟩] }
  | .take k =>
    match s.flushes[k]? with
    | some ⟨table :: tables, none⟩ =>
      match s.buffers.get table with
      | none => { s with flushes := s.flushes.set k ⟨tables, none⟩ }
      | some rows =>
        { s with
          buffers := s.buffers.insert table []
          flushes := s.flushes.set k
            ⟨tables, if rows.isEmpty then none else some (table, rows)⟩ }
    | _ => s
  | .execute k =>
    match s.flushes[k]? with
    | some ⟨tables, some (table, rows)⟩ =>
      { s with
        flushes := s.flushes.set k ⟨tables, none⟩
        executed := s.executed ++ [(table, rows)] }
    | _ => s

def numberedOf (k : Row.Kind) (rows : List Numbered) : List Numbered :=
  rows.filter fun x => x.2.kind = k

/-- The batched `INSERT`, with the numbers of the operations that it carries. -/
def insertPlan (b : WriteBuffer) (table : String) (rows : List Numbered) :
    List (Stmt × List ℕ) :=
  match b.tableColumns table with
  | some cols =>
    if (numberedOf .insert rows).isEmpty then []
    else [(insertStmt table cols ((numberedOf .insert rows).map Prod.snd),
      (numberedOf .insert rows).map Prod.fst)]
  | none => []

/-- The `UPDATE` of each row. -/
def updatePlan (b : WriteBuffer) (table : String) (rows : List Numbered) :
    List (Stmt × List ℕ) :=
  match b.tableColumns table, b.pkColumns table with
  | some cols, some pk => (numberedOf .update rows).flatMap fun x =>
      (updateStmt table cols pk x.2).map fun s => (s, [x.1])
  | _, _ => []

/-- The batched `DELETE`. -/
def deletePlan (b : WriteBuffer) (table : String) (rows : List Numbered) :
    List (Stmt × List ℕ) :=
  match b.pkColumns table with
  | some pk =>
    if (deleteKeys pk ((numberedOf .delete rows).map Prod.snd)).isEmpty then []
    else [(.delete table pk (deleteKeys pk ((numberedOf .delete rows).map Prod.snd)),
      ((numberedOf .delete rows).filter fun x => (x.2.get pk).isSome).map Prod.fst)]
  | none => []

/-- The statements of a flush, each with the numbers of the operations that it carries. -/
def plan (b : WriteBuffer) (table : String) (rows : List Numbered) : List (Stmt × List ℕ) :=
  insertPlan b table rows ++ (updatePlan b table rows ++ deletePlan b table rows)

/-- A statement carries the operation: the row of an insert, an update that sets something, a
delete by the key of the table. -/
def sends (b : WriteBuffer) (table : String) (row : Row) : Bool :=
  match row.kind with
  | .insert => (b.tableColumns table).isSome
  | .update =>
    match b.tableColumns table, b.pkColumns table with
    | some cols, some pk => !(updateSets cols pk row).isEmpty
    | _, _ => false
  | .delete =>
    match b.pkColumns table with
    | some pk => (row.get pk).isSome
    | none => false

theorem kind_of_mem_numberedOf {k : Row.Kind} {rows : List Numbered} {x : Numbered}
    (h : x ∈ numberedOf k rows) : x.2.kind = k :=
  of_decide_eq_true (List.mem_filter.mp h).2

theorem map_snd_numberedOf (k : Row.Kind) (rows : List Numbered) :
    (numberedOf k rows).map Prod.snd = ofKind k (rows.map Prod.snd) := by
  unfold numberedOf ofKind
  rw [List.filter_map]
  rfl

theorem map_fst_plan (b : WriteBuffer) (table : String) (rows : List Numbered) :
    (plan b table rows).map Prod.fst = flushStmts b table (rows.map Prod.snd) := by
  have hinsert : (insertPlan b table rows).map Prod.fst =
      insertStmts b table (rows.map Prod.snd) := by
    unfold insertPlan insertStmts
    cases b.tableColumns table with
    | none => rfl
    | some cols =>
      dsimp only
      rw [← map_snd_numberedOf, List.isEmpty_map]
      split_ifs <;> rfl
  have hupdate : (updatePlan b table rows).map Prod.fst =
      updateStmts b table (rows.map Prod.snd) := by
    unfold updatePlan updateStmts
    cases b.tableColumns table with
    | none => rfl
    | some cols =>
      cases b.pkColumns table with
      | none => rfl
      | some pk =>
        dsimp only
        rw [← map_snd_numberedOf, List.flatMap_map, List.map_flatMap]
        congr 1
        funext x
        rw [List.map_map]
        exact List.map_id _
  have hdelete : (deletePlan b table rows).map Prod.fst =
      deleteStmts b table (rows.map Prod.snd) := by
    unfold deletePlan deleteStmts
    cases b.pkColumns table with
    | none => rfl
    | some pk =>
      dsimp only
      rw [map_snd_numberedOf]
      split_ifs <;> rfl
  unfold plan flushStmts
  rw [List.map_append, List.map_append, hinsert, hupdate, hdelete]

/-- The operations that the statements of a plan carry. -/
def carried (stmts : List (Stmt × List ℕ)) : List ℕ := stmts.flatMap Prod.snd

theorem carried_insertPlan (b : WriteBuffer) (table : String) (rows : List Numbered) :
    carried (insertPlan b table rows) =
      ((numberedOf .insert rows).filter fun x => sends b table x.2).map Prod.fst := by
  have hsends : ∀ x ∈ numberedOf .insert rows,
      sends b table x.2 = (b.tableColumns table).isSome := by
    intro x hx
    unfold sends
    rw [kind_of_mem_numberedOf hx]
  rw [List.filter_congr hsends]
  unfold insertPlan carried
  cases b.tableColumns table with
  | none => simp
  | some cols =>
    dsimp only
    split_ifs with hempty
    · rw [List.isEmpty_iff.mp hempty]
      rfl
    · simp

theorem carried_updatePlan (b : WriteBuffer) (table : String) (rows : List Numbered) :
    carried (updatePlan b table rows) =
      ((numberedOf .update rows).filter fun x => sends b table x.2).map Prod.fst := by
  have hkind : ∀ x ∈ numberedOf .update rows, x.2.kind = .update :=
    fun x hx => kind_of_mem_numberedOf hx
  unfold updatePlan carried
  generalize numberedOf .update rows = updates at *
  induction updates with
  | nil => cases b.tableColumns table <;> cases b.pkColumns table <;> rfl
  | cons x updates ih =>
    have hx := hkind x List.mem_cons_self
    have hrest := ih fun y hy => hkind y (List.mem_cons_of_mem x hy)
    rw [List.filter_cons]
    unfold sends at hrest ⊢
    rw [hx]
    cases htable : b.tableColumns table with
    | none =>
      rw [htable] at hrest
      exact hrest
    | some cols =>
      cases hpk : b.pkColumns table with
      | none =>
        rw [htable, hpk] at hrest
        exact hrest
      | some pk =>
        rw [htable, hpk] at hrest
        dsimp only at hrest ⊢
        rw [List.flatMap_cons, List.flatMap_append, hrest]
        unfold updateStmt
        split_ifs with hsets hsets' hsets'
        · rw [hsets] at hsets'
          cases hsets'
        · rfl
        · rfl
        · rw [Bool.not_eq_true] at hsets
          rw [hsets] at hsets'
          exact absurd rfl hsets'

theorem carried_deletePlan (b : WriteBuffer) (table : String) (rows : List Numbered) :
    carried (deletePlan b table rows) =
      ((numberedOf .delete rows).filter fun x => sends b table x.2).map Prod.fst := by
  have hsends : ∀ x ∈ numberedOf .delete rows, sends b table x.2 =
      match b.pkColumns table with
      | some pk => (x.2.get pk).isSome
      | none => false := by
    intro x hx
    unfold sends
    rw [kind_of_mem_numberedOf hx]
  rw [List.filter_congr hsends]
  unfold deletePlan carried
  cases b.pkColumns table with
  | none => simp
  | some pk =>
    dsimp only
    split_ifs with hempty
    · have hnone : (numberedOf .delete rows).filter (fun x => (x.2.get pk).isSome) = [] := by
        apply List.filter_eq_nil_iff.mpr
        intro x hx hsome
        obtain ⟨v, hv⟩ := Option.isSome_iff_exists.mp hsome
        have hmem : Row.toSqlLiteral v ∈ deleteKeys pk ((numberedOf .delete rows).map Prod.snd) :=
          List.mem_filterMap.mpr ⟨x.2, List.mem_map_of_mem hx, by rw [hv]; rfl⟩
        rw [List.isEmpty_iff.mp hempty] at hmem
        exact absurd hmem List.not_mem_nil
      rw [hnone]
      rfl
    · simp

theorem perm_numberedOf (rows : List Numbered) :
    rows.Perm (numberedOf .insert rows ++ (numberedOf .update rows ++ numberedOf .delete rows)) := by
  induction rows with
  | nil => exact List.Perm.refl _
  | cons x rows ih =>
    unfold numberedOf at ih ⊢
    rw [List.filter_cons, List.filter_cons, List.filter_cons]
    cases hx : x.2.kind with
    | insert => exact ih.cons x
    | update => exact (ih.cons x).trans List.perm_middle.symm
    | delete =>
      have hmove := (ih.cons x).trans List.perm_middle.symm
      exact hmove.trans (List.perm_middle.symm.append_left _)

/-- A flush hands each of its operations that have something to send to exactly one statement. -/
theorem carried_plan (b : WriteBuffer) (table : String) (rows : List Numbered) :
    (carried (plan b table rows)).Perm ((rows.filter fun x => sends b table x.2).map Prod.fst) := by
  have hplan : carried (plan b table rows) = carried (insertPlan b table rows) ++
      (carried (updatePlan b table rows) ++ carried (deletePlan b table rows)) := by
    unfold carried plan
    rw [List.flatMap_append, List.flatMap_append]
  rw [hplan, carried_insertPlan, carried_updatePlan, carried_deletePlan, ← List.map_append,
    ← List.map_append, ← List.filter_append, ← List.filter_append]
  exact (((perm_numberedOf rows).filter _).map _).symm

namespace Shared

section Agrees

variable {V : Type} {w : World V} {s : Shared}

/-- The world's buffer holds the rows of the numbered one. -/
def Agrees (w : World V) (s : Shared) : Prop :=
  ∀ table, w.buffers.get table = (s.buffers.get table).map (List.map Prod.snd)

theorem Agrees.rowsOf_eq (h : Agrees w s) (table : String) :
    rowsOf w table = (s.buffered table).map Prod.snd := by
  unfold rowsOf buffered
  rw [h table]
  cases s.buffers.get table <;> rfl

theorem Agrees.insert {w' : World V} {s' : Shared} (h : Agrees w s) {table : String}
    {rows : List Row} {numbers : List Numbered} (hrows : rows = numbers.map Prod.snd)
    (hw : w'.buffers = w.buffers.insert table rows)
    (hs : s'.buffers = s.buffers.insert table numbers) : Agrees w' s' := by
  intro table'
  rw [hw, hs, IndexMap.get_insert, IndexMap.get_insert, h table']
  split_ifs
  · rw [hrows]
    rfl
  · rfl

theorem Agrees.push (h : Agrees w s) (table : String) (row : Row) :
    Agrees (WriteBuffer.push table row w).2 (s.push table row) := by
  have hrows : rowsOf w table ++ [row] =
      (s.buffered table ++ [((s.issued table).length, row)]).map Prod.snd := by
    rw [h.rowsOf_eq table, List.map_append]
    rfl
  exact h.insert hrows rfl rfl

/-- A writer's step does to the numbered buffer what its call does to the buffer. -/
theorem Agrees.write (h : Agrees w s) (b : WriteBuffer) (table : String) (row : Row)
    (pkCol : String) (pkValue : ColumnValue) :
    Agrees (WriteBuffer.insert b table row w).2 (sharedStep b s (.insert table row)) ∧
      Agrees (WriteBuffer.update table row pkValue w).2
        (sharedStep b s (.update table row pkValue)) ∧
      Agrees (WriteBuffer.delete table pkCol pkValue w).2
        (sharedStep b s (.delete table pkCol pkValue)) := by
  refine ⟨?_, h.push table _, h.push table _⟩
  have hlength : (rowsOf w table).length = (s.buffered table).length := by
    rw [h.rowsOf_eq table, List.length_map]
  unfold WriteBuffer.insert sharedStep
  rw [hlength]
  dsimp only
  split_ifs
  · exact h.insert (h.rowsOf_eq table) rfl rfl
  · exact h.push table row

/-- The step of a flush that takes the rows of its next table is `std::mem::take`, and it holds
what that returns. -/
theorem Agrees.take (h : Agrees w s) (b : WriteBuffer) {k : ℕ} {table : String}
    {tables : List String} (hk : s.flushes[k]? = some ⟨table :: tables, none⟩) :
    Agrees (WriteBuffer.take table w).2 (sharedStep b s (.take k)) ∧
      (WriteBuffer.take table w).1 =
        .ok ((s.buffers.get table).map (List.map Prod.snd)) := by
  unfold WriteBuffer.take sharedStep
  dsimp only
  rw [h table, hk]
  dsimp only
  cases s.buffers.get table with
  | none => exact ⟨h, rfl⟩
  | some rows => exact ⟨h.insert rfl rfl rfl, rfl⟩

end Agrees

end Shared

namespace Shared

/-- What a flush holds of a table. -/
def held (table : String) (f : FlushTask) : List Numbered :=
  match f.held with
  | some (t, rows) => if t = table then rows else []
  | none => []

/-- What of an executed batch is of a table. -/
def ofTable (table : String) (batch : String × List Numbered) : List Numbered :=
  if batch.1 = table then batch.2 else []

/-- The operations on a table, numbered. -/
def numbered (rows : List Row) : List Numbered := rows.zipIdx.map Prod.swap

theorem numbered_append_singleton (rows : List Row) (row : Row) :
    numbered (rows ++ [row]) = numbered rows ++ [(rows.length, row)] := by
  unfold numbered
  rw [List.zipIdx_append, List.map_append, Nat.zero_add]
  rfl

theorem map_fst_numbered (rows : List Row) :
    (numbered rows).map Prod.fst = List.range rows.length := by
  unfold numbered
  rw [List.map_map, List.range_eq_range']
  exact List.zipIdx_map_snd 0 rows

theorem nodup_numbered (rows : List Row) : ((numbered rows).map Prod.fst).Nodup := by
  rw [map_fst_numbered]
  exact List.nodup_range

/-- The operations on the table are those that are buffered, held and executed. -/
def Balanced (s : Shared) (table : String) : Prop :=
  (s.buffered table ++ s.flushes.flatMap (held table) ++ s.executed.flatMap (ofTable table)).Perm
    (numbered (s.issued table))

theorem buffered_of_insert (s s' : Shared) {table : String} {rows : List Numbered}
    (h : s'.buffers = s.buffers.insert table rows) (table' : String) :
    s'.buffered table' = if table' = table then rows else s.buffered table' := by
  unfold buffered
  rw [h, IndexMap.get_insert]
  split_ifs <;> rfl

theorem balanced_push {s : Shared} {table' : String} (h : s.Balanced table') (table : String)
    (row : Row) : (s.push table row).Balanced table' := by
  have hbuffered := buffered_of_insert s (s.push table row) rfl table'
  unfold Balanced at *
  rw [hbuffered]
  show (_ ++ s.flushes.flatMap _ ++ s.executed.flatMap _).Perm
    (numbered (Function.update s.issued table (s.issued table ++ [row]) table'))
  rw [Function.update_apply]
  split_ifs with ht
  · rw [numbered_append_singleton, ← ht]
    -- the new row is the last one of the buffer and of the operations, past what is held or executed
    apply List.Perm.trans _ (h.append_right [((s.issued table').length, row)])
    rw [List.append_assoc, List.append_assoc, List.append_assoc, List.append_assoc]
    apply List.Perm.append_left
    rw [← List.append_assoc (s.flushes.flatMap (held table'))]
    exact List.perm_append_comm
  · exact h

theorem balanced_take {s : Shared} {table' : String} (h : s.Balanced table') {k : ℕ}
    {table : String} {tables : List String} {rows : List Numbered}
    (hk : s.flushes[k]? = some ⟨table :: tables, none⟩) (hrows : s.buffers.get table = some rows) :
    Balanced { s with
      buffers := s.buffers.insert table []
      flushes := s.flushes.set k ⟨tables, if rows.isEmpty then none else some (table, rows)⟩ }
      table' := by
  have hbuffered := buffered_of_insert s { s with
      buffers := s.buffers.insert table []
      flushes := s.flushes.set k ⟨tables, if rows.isEmpty then none else some (table, rows)⟩ }
    rfl table'
  have hnow : s.buffered table = rows := by
    unfold buffered
    rw [hrows]
    rfl
  -- `rest` is what the other flushes hold
  obtain ⟨rest, hbefore, hafter⟩ := Custody.perm_flatMap_set hk
    ⟨tables, if rows.isEmpty then none else some (table, rows)⟩ (held table')
  have hheld : held table' ⟨tables, if rows.isEmpty then none else some (table, rows)⟩ =
      if table' = table then rows else [] := by
    unfold held
    by_cases hempty : rows.isEmpty = true
    · rw [if_pos hempty, List.isEmpty_iff.mp hempty]
      split_ifs <;> rfl
    · rw [if_neg hempty]
      by_cases ht : table = table'
      · rw [if_pos ht.symm]
        exact if_pos ht
      · rw [if_neg (Ne.symm ht)]
        exact if_neg ht
  rw [hheld] at hafter
  unfold Balanced at *
  rw [hbuffered]
  apply List.Perm.trans _ h
  apply List.Perm.append_right
  show ((if table' = table then [] else s.buffered table') ++ (s.flushes.set k _).flatMap _).Perm _
  have hsame : (s.flushes.flatMap (held table')).Perm rest := hbefore
  by_cases ht : table' = table
  · rw [if_pos ht] at hafter ⊢
    have hnow' : s.buffered table' = rows := by rw [ht, hnow]
    rw [hnow']
    exact hafter.trans (hsame.symm.append_left rows)
  · rw [if_neg ht] at hafter ⊢
    exact (hafter.trans hsame.symm).append_left _

theorem balanced_execute {s : Shared} {table' : String} (h : s.Balanced table') {k : ℕ}
    {table : String} {tables : List String} {rows : List Numbered}
    (hk : s.flushes[k]? = some ⟨tables, some (table, rows)⟩) :
    Balanced { s with
      flushes := s.flushes.set k ⟨tables, none⟩
      executed := s.executed ++ [(table, rows)] } table' := by
  obtain ⟨rest, hbefore, hafter⟩ := Custody.perm_flatMap_set hk ⟨tables, none⟩ (held table')
  have hbatch : held table' ⟨tables, some (table, rows)⟩ = ofTable table' (table, rows) := rfl
  rw [hbatch] at hbefore
  have hsame : ((s.flushes.set k ⟨tables, none⟩).flatMap (held table')).Perm rest := hafter
  unfold Balanced at *
  apply List.Perm.trans _ h
  show (s.buffered table' ++ (s.flushes.set k ⟨tables, none⟩).flatMap _ ++
    (s.executed ++ [(table, rows)]).flatMap _).Perm _
  rw [List.flatMap_append, List.flatMap_singleton, List.append_assoc, List.append_assoc]
  apply List.Perm.append_left
  have hmove : (rest ++ (s.executed.flatMap (ofTable table') ++ ofTable table' (table, rows))).Perm
      (rest ++ (ofTable table' (table, rows) ++ s.executed.flatMap (ofTable table'))) :=
    List.perm_append_comm.append_left _
  have hback : (rest ++ (ofTable table' (table, rows) ++ s.executed.flatMap (ofTable table'))).Perm
      (s.flushes.flatMap (held table') ++ s.executed.flatMap (ofTable table')) := by
    rw [← List.append_assoc]
    exact (List.perm_append_comm.trans hbefore.symm).append_right _
  exact ((hsame.append_right _).trans hmove).trans hback

theorem balanced_step (b : WriteBuffer) {s : Shared} {table' : String} (h : s.Balanced table')
    (a : SharedAction) : (sharedStep b s a).Balanced table' := by
  cases a with
  | insert table row =>
    unfold sharedStep
    dsimp only
    split_ifs
    · have hbuffered := buffered_of_insert s { s with
        buffers := s.buffers.insert table (s.buffered table) } rfl table'
      unfold Balanced at *
      rw [hbuffered]
      split_ifs with ht
      · rw [← ht]
        exact h
      · exact h
    · exact balanced_push h table row
  | update table row pkValue => exact balanced_push h table _
  | delete table pkCol pkValue => exact balanced_push h table _
  | flush tables =>
    unfold Balanced at *
    show (s.buffered table' ++ (s.flushes ++ [(⟨tables, none⟩ : FlushTask)]).flatMap _ ++ _).Perm _
    rw [List.flatMap_append, List.flatMap_singleton]
    show (s.buffered table' ++ (s.flushes.flatMap (held table') ++ []) ++ _).Perm _
    rw [List.append_nil]
    exact h
  | take k =>
    unfold sharedStep
    dsimp only
    split
    · next table tables hk =>
      split
      · next hnone =>
        obtain ⟨rest, hbefore, hafter⟩ :=
          Custody.perm_flatMap_set hk ⟨tables, none⟩ (held table')
        unfold Balanced at *
        apply List.Perm.trans _ h
        exact ((hafter.trans hbefore.symm).append_left _).append_right _
      · next rows hrows => exact balanced_take h hk hrows
    · exact h
  | execute k =>
    unfold sharedStep
    dsimp only
    split
    · next tables table rows hk => exact balanced_execute h hk
    · exact h

theorem balanced_run (b : WriteBuffer) (actions : List SharedAction) (table : String) :
    (actions.foldl (sharedStep b) initial).Balanced table := by
  apply List.foldlRecOn (motive := fun s => Balanced s table)
  · exact List.Perm.refl _
  · intro s hs a _
    exact balanced_step b hs a

/-- A flush in progress holds the operation. -/
def Holds (s : Shared) (table : String) (n k : ℕ) : Prop :=
  ∃ f, s.flushes[k]? = some f ∧ n ∈ (held table f).map Prod.fst

/-- The operations on a table that the executed statements carry. -/
def handed (b : WriteBuffer) (s : Shared) (table : String) : List ℕ :=
  s.executed.flatMap fun batch => if batch.1 = table then carried (plan b table batch.2) else []

theorem perm_handed (b : WriteBuffer) (s : Shared) (table : String) :
    (s.handed b table).Perm (((s.executed.flatMap (ofTable table)).filter fun x =>
      sends b table x.2).map Prod.fst) := by
  unfold handed
  generalize s.executed = batches
  induction batches with
  | nil => exact List.Perm.refl _
  | cons batch batches ih =>
    rw [List.flatMap_cons, List.flatMap_cons, List.filter_append, List.map_append]
    apply List.Perm.append _ ih
    unfold ofTable
    split_ifs
    · exact carried_plan b table batch.2
    · exact List.Perm.refl _

/-- The operation is in the buffer once, or exactly one flush in progress holds it, or it has been
executed, in as many statements as `times` says. -/
def Placed (b : WriteBuffer) (s : Shared) (table : String) (n times : ℕ) : Prop :=
  (((s.buffered table).map Prod.fst).count n = 1 ∧ (∀ k, ¬s.Holds table n k) ∧
    n ∉ s.handed b table) ∨
  (n ∉ (s.buffered table).map Prod.fst ∧ (∃! k, s.Holds table n k) ∧ n ∉ s.handed b table) ∨
  (n ∉ (s.buffered table).map Prod.fst ∧ (∀ k, ¬s.Holds table n k) ∧
    (s.handed b table).count n = times)

theorem placed_of_balanced (b : WriteBuffer) {s : Shared} {table : String}
    (h : s.Balanced table) {n : ℕ} {row : Row} (hop : (s.issued table)[n]? = some row) :
    s.Placed b table n (if sends b table row then 1 else 0) := by
  have hperm := h.map Prod.fst
  rw [List.map_append, List.map_append, List.map_flatMap, map_fst_numbered] at hperm
  -- the numbers of the operations are a range, so each stands in one of the three places once
  have hlt : n < (s.issued table).length := (List.getElem?_eq_some_iff.mp hop).1
  have hthree := Custody.one_of_three hperm List.nodup_range (List.mem_range.mpr hlt)
  have hnodup := hperm.nodup_iff.mpr List.nodup_range
  have hheld : (s.flushes.flatMap fun f => (held table f).map Prod.fst).Nodup :=
    (List.nodup_append.mp (List.nodup_append.mp hnodup).1).2.1
  have hexecuted : ((s.executed.flatMap (ofTable table)).map Prod.fst).Nodup :=
    (List.nodup_append.mp hnodup).2.1
  have hno {k : ℕ} (hk : s.Holds table n k) :
      n ∈ s.flushes.flatMap fun f => (held table f).map Prod.fst := by
    obtain ⟨f, hf, hn⟩ := hk
    exact List.mem_flatMap.mpr ⟨f, List.mem_of_getElem? hf, hn⟩
  have hsub : n ∈ s.handed b table → n ∈ (s.executed.flatMap (ofTable table)).map Prod.fst := by
    intro hn
    have hn' := (perm_handed b s table).subset hn
    exact List.map_subset _ (List.filter_subset_self _) hn'
  rcases hthree with ⟨hbuf, hhold, hexec⟩ | ⟨hbuf, hhold, hexec⟩ | ⟨hbuf, hhold, hexec⟩
  · left
    refine ⟨hbuf, fun k hk => ?_, fun hn => ?_⟩
    · exact List.count_eq_zero.mp hhold (hno hk)
    · exact List.count_eq_zero.mp hexec (hsub hn)
  · right
    left
    refine ⟨List.count_eq_zero.mp hbuf, ?_, fun hn => List.count_eq_zero.mp hexec (hsub hn)⟩
    apply Custody.existsUnique_holder hheld
    apply List.count_pos_iff.mp
    omega
  · right
    right
    refine ⟨List.count_eq_zero.mp hbuf, fun k hk => List.count_eq_zero.mp hhold (hno hk), ?_⟩
    -- the row under the number is the one that was issued
    have hmem : n ∈ (s.executed.flatMap (ofTable table)).map Prod.fst := by
      apply List.count_pos_iff.mp
      omega
    have hrow {row' : Row} (hx : (n, row') ∈ s.executed.flatMap (ofTable table)) : row' = row := by
      have hx' : (n, row') ∈ numbered (s.issued table) :=
        h.subset (List.mem_append_right _ hx)
      obtain ⟨y, hy, hyx⟩ := List.mem_map.mp hx'
      have hget := List.mem_zipIdx_iff_getElem?.mp hy
      have hn : y.2 = n := congrArg Prod.fst hyx
      have hr : y.1 = row' := congrArg Prod.snd hyx
      rw [hn, hop, hr] at hget
      exact (Option.some.inj hget).symm
    rw [(perm_handed b s table).count_eq]
    have hsent : (((s.executed.flatMap (ofTable table)).filter fun x =>
        sends b table x.2).map Prod.fst).Nodup :=
      hexecuted.sublist (List.filter_sublist.map _)
    split_ifs with hsends
    · apply List.count_eq_one_of_mem hsent
      obtain ⟨x, hx, hxn⟩ := List.mem_map.mp hmem
      have hx' : (n, x.2) ∈ s.executed.flatMap (ofTable table) := by
        rw [← hxn]
        exact hx
      refine List.mem_map.mpr ⟨x, List.mem_filter.mpr ⟨hx, ?_⟩, hxn⟩
      rw [hrow hx']
      exact hsends
    · apply List.count_eq_zero.mpr
      intro hn
      obtain ⟨x, hx, hxn⟩ := List.mem_map.mp hn
      obtain ⟨hx, hxs⟩ := List.mem_filter.mp hx
      have hx' : (n, x.2) ∈ s.executed.flatMap (ofTable table) := by
        rw [← hxn]
        exact hx
      rw [hrow hx'] at hxs
      exact hsends hxs

end Shared

/-- What a row asks of its table: an insert, an update of a column of the table that is not its
key, or a delete by the key. -/
def Asks (d : TableDef) (pk : String) (row : Row) : Prop :=
  match row.kind with
  | .insert => True
  | .update => ∃ c ∈ d.columnNames, c ≠ pk ∧ (row.get c).isSome = true
  | .delete => (row.get pk).isSome = true

theorem sends_iff {schema : Schema} (hs : validateSchema schema = []) {d : TableDef}
    (hd : d ∈ schema.tables) {pk : String} (hpk : d.pk = some pk) (row : Row) :
    sends (new schema) d.name row = true ↔ Asks d pk row := by
  obtain ⟨hcols, hkey⟩ := new_of_mem hs hd hpk
  unfold sends Asks
  rw [hcols, hkey]
  cases row.kind with
  | insert => simp
  | delete => exact Iff.rfl
  | update =>
    dsimp only
    rw [Bool.not_eq_true', ← Bool.not_eq_true, List.isEmpty_iff]
    constructor
    · intro hne
      obtain ⟨x, hx⟩ := List.exists_mem_of_ne_nil _ hne
      obtain ⟨c, hc, hv⟩ := List.mem_filterMap.mp hx
      obtain ⟨hcol, hnot⟩ := List.mem_filter.mp hc
      obtain ⟨v, hget, -⟩ := Option.map_eq_some_iff.mp hv
      exact ⟨c, hcol, of_decide_eq_true hnot, by rw [hget]; rfl⟩
    · rintro ⟨c, hcol, hnot, hget⟩ hnil
      obtain ⟨v, hv⟩ := Option.isSome_iff_exists.mp hget
      have hmem : (c, Row.toSqlLiteral v) ∈ updateSets d.columnNames pk row :=
        List.mem_filterMap.mpr ⟨c, List.mem_filter.mpr ⟨hcol, decide_eq_true hnot⟩, by rw [hv]; rfl⟩
      rw [hnil] at hmem
      exact absurd hmem List.not_mem_nil

/-- At every moment an operation on a table of the schema is in the buffer, or held by exactly one
flush, or executed: in exactly one statement when it asks something of the table, in none when it
does not. -/
theorem run_placed {schema : Schema} (hs : validateSchema schema = []) {d : TableDef}
    (hd : d ∈ schema.tables) {pk : String} (hpk : d.pk = some pk) (actions : List SharedAction)
    {n : ℕ} {row : Row}
    (hop : ((actions.foldl (sharedStep (new schema)) Shared.initial).issued d.name)[n]? =
      some row) :
    (Asks d pk row → (actions.foldl (sharedStep (new schema)) Shared.initial).Placed
      (new schema) d.name n 1) ∧
    (¬Asks d pk row → (actions.foldl (sharedStep (new schema)) Shared.initial).Placed
      (new schema) d.name n 0) := by
  have hplaced := Shared.placed_of_balanced (new schema)
    (Shared.balanced_run (new schema) actions d.name) hop
  have hiff := sends_iff hs hd hpk row
  constructor
  · intro hasks
    rw [if_pos (hiff.mpr hasks)] at hplaced
    exact hplaced
  · intro hasks
    rw [if_neg fun h => hasks (hiff.mp h)] at hplaced
    exact hplaced

/-- A row is inserted and taken by a first flush, a second one is inserted and taken by another
one, and the second flush executes first. -/
def crossing : List SharedAction :=
  [.insert "accounts" (accountRow "a" "5"), .flush ["accounts"], .take 0,
    .insert "accounts" (accountRow "b" "7"), .flush ["accounts"], .take 1, .execute 1]

/-- The first row is held by the first flush and the second row has been handed to Postgres. -/
theorem run_placed_crossing :
    let s := crossing.foldl (sharedStep (new ⟨[accountsTable]⟩)) Shared.initial
    s.Placed (new ⟨[accountsTable]⟩) "accounts" 0 1 ∧
      s.Placed (new ⟨[accountsTable]⟩) "accounts" 1 1 := by
  intro s
  have hs : validateSchema ⟨[accountsTable]⟩ = [] := by decide
  have hd : accountsTable ∈ (⟨[accountsTable]⟩ : Schema).tables := List.mem_singleton_self _
  have hasks (id balance : String) : Asks accountsTable "id" (accountRow id balance) := trivial
  have hpk : accountsTable.pk = some "id" := rfl
  have hfirst : (s.issued accountsTable.name)[0]? = some (accountRow "a" "5") := by rfl
  have hsecond : (s.issued accountsTable.name)[1]? = some (accountRow "b" "7") := by rfl
  constructor
  · exact (run_placed hs hd hpk crossing hfirst).1 (hasks "a" "5")
  · exact (run_placed hs hd hpk crossing hsecond).1 (hasks "b" "7")

/-- An update that sets no column is flushed. -/
def emptyUpdate : List SharedAction :=
  [.update "accounts" (Row.new.insert "id" (.text "a")) (.text "a"), .flush ["accounts"], .take 0,
    .execute 0]

/-- The update has been issued, and it is nowhere: no statement carries it. -/
theorem run_not_placed :
    let s := emptyUpdate.foldl (sharedStep (new ⟨[accountsTable]⟩)) Shared.initial
    (s.issued "accounts").length = 1 ∧
      ¬s.Placed (new ⟨[accountsTable]⟩) "accounts" 0 1 := by
  intro s
  have hbuffered : (s.buffered "accounts").map Prod.fst = [] := by decide
  have hhanded : s.handed (new ⟨[accountsTable]⟩) "accounts" = [] := by decide
  have hheld : (s.flushes.flatMap fun f => (Shared.held "accounts" f).map Prod.fst) = [] := by decide
  refine ⟨by decide, ?_⟩
  unfold Shared.Placed
  rw [hbuffered, hhanded]
  rintro (⟨hone, -⟩ | ⟨-, ⟨k, ⟨f, hf, hn⟩, -⟩, -⟩ | ⟨-, -, hone⟩)
  · exact absurd hone (by decide)
  · have hmem : 0 ∈ s.flushes.flatMap fun f => (Shared.held "accounts" f).map Prod.fst :=
      List.mem_flatMap.mpr ⟨f, List.mem_of_getElem? hf, hn⟩
    rw [hheld] at hmem
    exact absurd hmem List.not_mem_nil
  · exact absurd hone (by decide)

end WriteBuffer

end ForgeIndex
