import ForgeIndex.Db.Postgres

/-!
# The write buffer

`forge-index-db/src/buffer.rs` and the builders of `context.rs` that feed it.
-/

namespace ForgeIndex

/-- The fixed part of `WriteBuffer`; the buffered rows are in the `World`. -/
structure WriteBuffer where
  maxSize : ℕ
  tableColumns : String → Option (List String)
  pkColumns : String → Option String

namespace WriteBuffer

/-- One round of the loop in `WriteBuffer::new`. -/
def addTable (b : WriteBuffer) (t : TableDef) : WriteBuffer :=
  { b with
    tableColumns := Function.update b.tableColumns t.name (some t.columnNames)
    pkColumns := match t.pk with
      | some pk => Function.update b.pkColumns t.name (some pk)
      | none => b.pkColumns }

def new (schema : Schema) : WriteBuffer :=
  schema.tables.foldl addTable ⟨10000, fun _ => none, fun _ => none⟩

theorem foldl_addTable_of_not_mem (ts : List TableDef) (b : WriteBuffer) {name : String}
    (h : name ∉ ts.map TableDef.name) :
    (ts.foldl addTable b).tableColumns name = b.tableColumns name ∧
      (ts.foldl addTable b).pkColumns name = b.pkColumns name := by
  induction ts generalizing b with
  | nil => exact ⟨rfl, rfl⟩
  | cons t ts ih =>
    rw [List.map_cons, List.mem_cons, not_or] at h
    obtain ⟨hc, hp⟩ := ih (addTable b t) h.2
    refine ⟨hc.trans (Function.update_of_ne h.1 _ _), hp.trans ?_⟩
    unfold addTable
    cases t.pk with
    | none => rfl
    | some pk => exact Function.update_of_ne h.1 _ _

theorem foldl_addTable_of_mem (ts : List TableDef) (b : WriteBuffer)
    (hnd : (ts.map TableDef.name).Nodup) {d : TableDef} (hd : d ∈ ts) {pk : String}
    (hpk : d.pk = some pk) :
    (ts.foldl addTable b).tableColumns d.name = some d.columnNames ∧
      (ts.foldl addTable b).pkColumns d.name = some pk := by
  induction ts generalizing b with
  | nil => simp at hd
  | cons t ts ih =>
    rw [List.map_cons, List.nodup_cons] at hnd
    rcases List.mem_cons.mp hd with rfl | hd
    · obtain ⟨hc, hp⟩ := foldl_addTable_of_not_mem ts (addTable b d) hnd.1
      refine ⟨hc.trans ?_, hp.trans ?_⟩ <;> simp [addTable, hpk]
    · exact ih (addTable b t) hnd.2 hd

/-- The buffer knows the columns and the key of every table of an accepted schema. -/
theorem new_of_mem {schema : Schema} (h : validateSchema schema = []) {d : TableDef}
    (hd : d ∈ schema.tables) {pk : String} (hpk : d.pk = some pk) :
    (new schema).tableColumns d.name = some d.columnNames ∧
      (new schema).pkColumns d.name = some pk :=
  foldl_addTable_of_mem _ _ (nodup_of_validateSchema h) hd hpk

theorem new_of_find_none {schema : Schema} {name : String} (h : schema.find name = none) :
    (new schema).tableColumns name = none ∧ (new schema).pkColumns name = none := by
  refine foldl_addTable_of_not_mem schema.tables ⟨10000, fun _ => none, fun _ => none⟩ ?_
  intro hmem
  obtain ⟨t, ht, hname⟩ := List.mem_map.mp hmem
  have hno := List.find?_eq_none.mp h t ht
  simp [hname] at hno

theorem maxSize_foldl_addTable (ts : List TableDef) (b : WriteBuffer) :
    (ts.foldl addTable b).maxSize = b.maxSize := by
  induction ts generalizing b with
  | nil => rfl
  | cons t ts ih => exact ih _

@[simp] theorem maxSize_new (schema : Schema) : (new schema).maxSize = 10000 :=
  maxSize_foldl_addTable _ _

variable {V : Type}

/-- The rows buffered for a table; `entry(table).or_default()`. -/
def rowsOf (w : World V) (table : String) : List Row := (w.buffers.get table).getD []

theorem rowsOf_insert (w : World V) (table table' : String) (rows : List Row) :
    rowsOf { w with buffers := w.buffers.insert table rows } table' =
      if table' = table then rows else rowsOf w table' := by
  unfold rowsOf
  rw [IndexMap.get_insert]
  split_ifs <;> rfl

/-- `WriteBuffer::insert`.  A full buffer still leaves the (new) entry in the map. -/
def insert (b : WriteBuffer) (table : String) (row : Row) : Proc (World V) DbError Unit := fun w =>
  if b.maxSize ≤ (rowsOf w table).length then
    (.err (.bufferFull table), { w with buffers := w.buffers.insert table (rowsOf w table) })
  else
    (.ok (), { w with buffers := w.buffers.insert table (rowsOf w table ++ [row]) })

/-- `entry.push(row)` without a limit. -/
def push (table : String) (row : Row) : Proc (World V) DbError Unit :=
  Proc.modify fun w => { w with buffers := w.buffers.insert table (rowsOf w table ++ [row]) }

/-- `WriteBuffer::update`; the key value is not used. -/
def update (table : String) (row : Row) (_pkValue : ColumnValue) : Proc (World V) DbError Unit :=
  push table { row with operation := some "UPDATE" }

def delete (table pkCol : String) (pkValue : ColumnValue) : Proc (World V) DbError Unit :=
  push table { Row.new.insert pkCol pkValue with operation := some "DELETE" }

variable [DecidableEq V]

/-- The statement of `flush_inserts`. -/
def insertStmt (table : String) (columns : List String) (rows : List Row) : Stmt :=
  .insert table columns (rows.map fun r => columns.map r.literal)

def flushInserts (env : Env V) (table : String) (columns : List String) (rows : List Row) :
    Proc (World V) DbError Unit :=
  if rows.isEmpty then pure ()
  else (execute env (insertStmt table columns rows)).mapErr (.flush table)

/-- The assignments of an update: the schema columns that the row has, less the key. -/
def updateSets (columns : List String) (pkCol : String) (row : Row) : List (String × String) :=
  (columns.filter fun c => c ≠ pkCol).filterMap fun c =>
    (row.get c).map fun v => (c, Row.toSqlLiteral v)

/-- The loop body of `flush_updates`. -/
def flushUpdate (env : Env V) (table : String) (columns : List String) (pkCol : String)
    (row : Row) : Proc (World V) DbError Unit :=
  if (updateSets columns pkCol row).isEmpty then pure ()
  else (execute env (.update table (updateSets columns pkCol row) pkCol (row.literal pkCol))).mapErr
    (.flush table)

def flushUpdates (env : Env V) (table : String) (columns : List String) (pkCol : String)
    (rows : List Row) : Proc (World V) DbError Unit :=
  Proc.forEach (flushUpdate env table columns pkCol) rows

/-- The key values of a batched delete: rows without the key column are passed over. -/
def deleteKeys (pkCol : String) (rows : List Row) : List String :=
  rows.filterMap fun r => (r.get pkCol).map Row.toSqlLiteral

def flushDeletes (env : Env V) (table pkCol : String) (rows : List Row) :
    Proc (World V) DbError Unit :=
  if (deleteKeys pkCol rows).isEmpty then pure ()
  else (execute env (.delete table pkCol (deleteKeys pkCol rows))).mapErr (.flush table)

def ofKind (k : Row.Kind) (rows : List Row) : List Row := rows.filter fun r => r.kind = k

theorem kind_of_mem_ofKind {k : Row.Kind} {rows : List Row} {r : Row} (h : r ∈ ofKind k rows) :
    r.kind = k :=
  of_decide_eq_true (List.mem_filter.mp h).2

/-- The inserts of `flush_table`. -/
def insertPhase (b : WriteBuffer) (env : Env V) (table : String) (rows : List Row) :
    Proc (World V) DbError Unit :=
  match b.tableColumns table with
  | some cols => flushInserts env table cols (ofKind .insert rows)
  | none => pure ()

/-- The updates of `flush_table`. -/
def updatePhase (b : WriteBuffer) (env : Env V) (table : String) (rows : List Row) :
    Proc (World V) DbError Unit :=
  match b.tableColumns table, b.pkColumns table with
  | some cols, some pk => flushUpdates env table cols pk (ofKind .update rows)
  | _, _ => pure ()

/-- The deletes of `flush_table`. -/
def deletePhase (b : WriteBuffer) (env : Env V) (table : String) (rows : List Row) :
    Proc (World V) DbError Unit :=
  match b.pkColumns table with
  | some pk => flushDeletes env table pk (ofKind .delete rows)
  | none => pure ()

/-- The statements of `flush_table` for the rows it took from the buffer. -/
def flushRows (b : WriteBuffer) (env : Env V) (table : String) (rows : List Row) :
    Proc (World V) DbError Unit := do
  insertPhase b env table rows
  updatePhase b env table rows
  deletePhase b env table rows

/-- `std::mem::take(entry.value_mut())`; `none` when the table has no entry. -/
def take (table : String) : Proc (World V) DbError (Option (List Row)) := fun w =>
  match w.buffers.get table with
  | none => (.ok none, w)
  | some rows => (.ok (some rows), { w with buffers := w.buffers.insert table [] })

/-- `flush_table` once it holds the rows. -/
def flushTaken (b : WriteBuffer) (env : Env V) (table : String) :
    Option (List Row) → Proc (World V) DbError ℕ
  | none => pure 0
  | some rows =>
    if rows.isEmpty then pure 0
    else do
      flushRows b env table rows
      Proc.modify fun w => { w with totalFlushed := w.totalFlushed + rows.length }
      pure rows.length

def flushTable (b : WriteBuffer) (env : Env V) (table : String) : Proc (World V) DbError ℕ := do
  flushTaken b env table (← take table)

/-- The loop body of `flush_all`: `rows_per_table` records the tables that had rows. -/
def flushNext (b : WriteBuffer) (env : Env V) (stats : IndexMap String ℕ) (table : String) :
    Proc (World V) DbError (IndexMap String ℕ) := do
  let count ← flushTable b env table
  pure (if count > 0 then stats.insert table count else stats)

/-- `WriteBuffer::flush_all`; the map is walked in an order of its own. -/
def flushAll (b : WriteBuffer) (env : Env V) : Proc (World V) DbError (IndexMap String ℕ) := do
  let w ← Proc.get
  Proc.foldEach (flushNext b env) IndexMap.empty (env.order w.clock w.buffers.keys)

def insertStmts (b : WriteBuffer) (table : String) (rows : List Row) : List Stmt :=
  match b.tableColumns table with
  | some cols =>
    if (ofKind .insert rows).isEmpty then [] else [insertStmt table cols (ofKind .insert rows)]
  | none => []

def updateStmt (table : String) (columns : List String) (pkCol : String) (row : Row) : List Stmt :=
  if (updateSets columns pkCol row).isEmpty then []
  else [.update table (updateSets columns pkCol row) pkCol (row.literal pkCol)]

def updateStmts (b : WriteBuffer) (table : String) (rows : List Row) : List Stmt :=
  match b.tableColumns table, b.pkColumns table with
  | some cols, some pk => (ofKind .update rows).flatMap (updateStmt table cols pk)
  | _, _ => []

def deleteStmts (b : WriteBuffer) (table : String) (rows : List Row) : List Stmt :=
  match b.pkColumns table with
  | some pk =>
    if (deleteKeys pk (ofKind .delete rows)).isEmpty then []
    else [.delete table pk (deleteKeys pk (ofKind .delete rows))]
  | none => []

/-- What `flush_table` sends for its rows, in order. -/
def flushStmts (b : WriteBuffer) (table : String) (rows : List Row) : List Stmt :=
  insertStmts b table rows ++ (updateStmts b table rows ++ deleteStmts b table rows)

theorem flushStmts_of_find_none {schema : Schema} {table : String}
    (h : schema.find table = none) (rows : List Row) : flushStmts (new schema) table rows = [] := by
  obtain ⟨hc, hp⟩ := new_of_find_none h
  simp [flushStmts, insertStmts, updateStmts, deleteStmts, hc, hp]

/-- The statements of a list, one after the other. -/
def executeAll (env : Env V) (table : String) (stmts : List Stmt) : Proc (World V) DbError Unit :=
  (Proc.forEach (execute env) stmts).mapErr (.flush table)

theorem executeAll_append (env : Env V) (table : String) (ss ts : List Stmt) :
    executeAll env table (ss ++ ts) =
      executeAll env table ss >>= fun _ => executeAll env table ts := by
  unfold executeAll
  rw [Proc.forEach_append, Proc.mapErr_bind]

@[simp] theorem executeAll_nil (env : Env V) (table : String) :
    executeAll env table [] = pure () := rfl

@[simp] theorem executeAll_singleton (env : Env V) (table : String) (s : Stmt) :
    executeAll env table [s] = (execute env s).mapErr (.flush table) := by
  unfold executeAll
  rw [Proc.forEach_singleton]

theorem insertPhase_eq (b : WriteBuffer) (env : Env V) (table : String) (rows : List Row) :
    insertPhase b env table rows = executeAll env table (insertStmts b table rows) := by
  unfold insertPhase insertStmts flushInserts
  cases b.tableColumns table with
  | none => rfl
  | some cols =>
    dsimp only
    split_ifs
    · rw [executeAll_nil]
    · rw [executeAll_singleton]

theorem updatePhase_eq (b : WriteBuffer) (env : Env V) (table : String) (rows : List Row) :
    updatePhase b env table rows = executeAll env table (updateStmts b table rows) := by
  unfold updatePhase updateStmts flushUpdates executeAll
  cases b.tableColumns table with
  | none => rfl
  | some cols =>
    cases b.pkColumns table with
    | none => rfl
    | some pk =>
      dsimp only
      rw [Proc.forEach_flatMap, Proc.mapErr_forEach]
      congr
      funext row
      change _ = executeAll env table (updateStmt table cols pk row)
      unfold flushUpdate updateStmt
      split_ifs
      · rw [executeAll_nil]
      · rw [executeAll_singleton]

theorem deletePhase_eq (b : WriteBuffer) (env : Env V) (table : String) (rows : List Row) :
    deletePhase b env table rows = executeAll env table (deleteStmts b table rows) := by
  unfold deletePhase deleteStmts flushDeletes
  cases b.pkColumns table with
  | none => rfl
  | some pk =>
    dsimp only
    split_ifs
    · rw [executeAll_nil]
    · rw [executeAll_singleton]

theorem flushRows_eq (b : WriteBuffer) (env : Env V) (table : String) (rows : List Row) :
    flushRows b env table rows = executeAll env table (flushStmts b table rows) := by
  unfold flushRows flushStmts
  rw [executeAll_append, executeAll_append, insertPhase_eq, updatePhase_eq, deletePhase_eq]

/-- Rule for `flush_table`: nothing to do for a missing or empty entry, else the statements of
the rows that were taken. -/
theorem flushTable_triple {b : WriteBuffer} {env : Env V} {table : String} {P E : World V → Prop}
    {Q : World V → Prop} {R : List Row → World V → Prop}
    (hnone : ∀ w, P w → w.buffers.get table = none → Q w)
    (hempty : ∀ w, P w → w.buffers.get table = some [] →
      Q { w with buffers := w.buffers.insert table [] })
    (htake : ∀ w rows, P w → w.buffers.get table = some rows →
      R rows { w with buffers := w.buffers.insert table [] })
    (hrows : ∀ rows, rows ≠ [] → Proc.Triple (R rows)
      (executeAll env table (flushStmts b table rows))
      (fun _ w => Q { w with totalFlushed := w.totalFlushed + rows.length }) E) :
    Proc.Triple P (flushTable b env table) (fun _ => Q) E := by
  have hflush (rows : List Row) (hne : rows ≠ []) :
      Proc.Triple (R rows) (flushTaken b env table (some rows)) (fun _ => Q) E := by
    have hne' : ¬rows.isEmpty = true := by simpa using hne
    simp only [flushTaken, if_neg hne', flushRows_eq]
    refine (hrows rows hne).bind fun _ => Proc.Triple.bind (Q := fun _ => Q) ?_ fun _ => ?_
    · exact Proc.Triple.modify fun w hw => hw
    · exact Proc.Triple.pure fun w hw => hw
  intro w hw
  change Proc.Post _ _ (Proc.bind (take table) (flushTaken b env table) w)
  unfold Proc.bind take
  cases hget : w.buffers.get table with
  | none => exact hnone w hw hget
  | some rows =>
    by_cases hne : rows = []
    · subst hne
      exact hempty w hw hget
    · exact hflush rows hne _ (htake w rows hw hget)

theorem executeAll_triple {env : Env V} {table : String} {stmts : List Stmt} {I : World V → Prop}
    (h : ∀ s ∈ stmts, Proc.Triple I (execute env s) (fun _ => I) I) :
    Proc.Triple I (executeAll env table stmts) (fun _ => I) I := by
  refine Proc.Triple.mapErr (Proc.Triple.forEach (I := fun _ => I) fun pre s post hpre => ?_)
  apply h
  rw [hpre]
  simp

/-- Rule for `flush_all`: `I done` holds once the tables of `done` have been flushed. -/
theorem flushAll_triple {b : WriteBuffer} {env : Env V} {P E : World V → Prop}
    {I : List String → List String → World V → Prop}
    (hstart : ∀ w, P w → I (env.order w.clock w.buffers.keys) [] w)
    (h : ∀ tables pre table post, tables = pre ++ table :: post →
      Proc.Triple (I tables pre) (flushTable b env table)
        (fun _ => I tables (pre ++ [table])) E) :
    Proc.Triple P (flushAll b env) (fun _ w => ∃ tables, I tables tables w) E := by
  intro w hw
  have hloop := Proc.Triple.foldEach (f := flushNext b env)
    (I := fun pre _ => I (env.order w.clock w.buffers.keys) pre) (E := E) IndexMap.empty
    fun pre table post _ hpre => (h _ pre table post hpre).bind fun _ =>
      Proc.Triple.pure fun _ hw => hw
  exact (hloop.conseq (fun _ hs => hs) (fun _ _ hs => ⟨_, hs⟩) fun _ hs => hs) w (hstart w hw)

/-- What a flush cannot reach: whatever does not depend on the buffers, the tables and the
statement counters. -/
def FlushFrame (I : World V → Prop) : Prop :=
  ∀ w buffers tables clock sent totalFlushed, I w →
    I { w with buffers, tables, clock, sent, totalFlushed }

theorem flushTable_frame (b : WriteBuffer) (env : Env V) (table : String) {I : World V → Prop}
    (hI : FlushFrame I) (p : String → Prop) :
    Proc.Triple (fun w => I w ∧ ∀ t, p t → rowsOf w t = []) (flushTable b env table)
      (fun _ w => I w ∧ ∀ t, p t ∨ t = table → rowsOf w t = []) I := by
  have htaken (w : World V) (hw : I w ∧ ∀ t, p t → rowsOf w t = []) :
      I { w with buffers := w.buffers.insert table [] } ∧ ∀ t, p t ∨ t = table →
        rowsOf { w with buffers := w.buffers.insert table [] } t = [] := by
    refine ⟨hI w _ _ _ _ _ hw.1, fun t ht => ?_⟩
    rw [rowsOf_insert]
    split_ifs with h
    · rfl
    · exact hw.2 t (ht.resolve_right h)
  refine flushTable_triple (R := fun _ w => I w ∧ ∀ t, p t ∨ t = table → rowsOf w t = [])
    ?_ (fun w hw _ => htaken w hw) (fun w rows hw _ => htaken w hw) ?_
  · intro w hw hget
    refine ⟨hw.1, fun t ht => ?_⟩
    rcases ht with ht | rfl
    · exact hw.2 t ht
    · simp [rowsOf, hget]
  · intro rows _
    have hexec : Proc.Triple (fun w => I w ∧ ∀ t, p t ∨ t = table → rowsOf w t = [])
        (executeAll env table (flushStmts b table rows))
        (fun _ w => I w ∧ ∀ t, p t ∨ t = table → rowsOf w t = [])
        (fun w => I w ∧ ∀ t, p t ∨ t = table → rowsOf w t = []) :=
      executeAll_triple fun s _ => execute_triple env s
        (fun w hw => ⟨hI w _ _ _ _ _ hw.1, hw.2⟩) fun w _ _ hw _ => ⟨hI w _ _ _ _ _ hw.1, hw.2⟩
    exact hexec.conseq (fun _ h => h) (fun _ w hw => ⟨hI w _ _ _ _ _ hw.1, hw.2⟩) fun _ h => h.1

omit [DecidableEq V] in
theorem rowsOf_of_not_mem_order (env : Env V) {w : World V} {table : String}
    (h : table ∉ env.order w.clock w.buffers.keys) : rowsOf w table = [] := by
  have hnone : w.buffers.get table = none := by
    rw [(env.order_perm _ _).mem_iff, IndexMap.mem_keys_iff] at h
    simpa using h
  unfold rowsOf
  rw [hnone]
  rfl

/-- A flush that finished leaves no buffered row, and whatever becomes of it, it stays in its
frame. -/
theorem flushAll_frame (b : WriteBuffer) (env : Env V) {I : World V → Prop} (hI : FlushFrame I) :
    Proc.Triple I (flushAll b env) (fun _ w => I w ∧ ∀ t, rowsOf w t = []) I := by
  have hloop := flushAll_triple (b := b) (P := I) (E := I)
    (I := fun tables pre w => I w ∧ ∀ t, t ∈ pre ∨ t ∉ tables → rowsOf w t = [])
    (fun w hw => ⟨hw, fun t ht => rowsOf_of_not_mem_order env (by simpa using ht)⟩)
    fun tables pre table post _ =>
      (flushTable_frame b env table hI fun t => t ∈ pre ∨ t ∉ tables).conseq (fun _ h => h)
        (fun _ w hw => ⟨hw.1, fun t ht => hw.2 t (by
          rw [List.mem_append, List.mem_singleton] at ht
          rcases ht with (ht | ht) | ht
          · exact .inl (.inl ht)
          · exact .inr ht
          · exact .inl (.inr ht))⟩) fun _ h => h
  refine hloop.conseq (fun _ h => h) (fun _ w hw => ?_) fun _ h => h
  obtain ⟨tables, hw, hrows⟩ := hw
  exact ⟨hw, fun t => hrows t (Classical.em _)⟩

/-- The buffers hold what `B` says. -/
def Holds (w : World V) (B : String → List Row) : Prop := ∀ table, rowsOf w table = B table

/-- What holds however many further statements are executed. -/
def SendFrame (I : World V → Prop) : Prop :=
  ∀ w tables clock more, I w → I { w with tables, clock, sent := w.sent ++ more }

theorem execute_sent (env : Env V) (s : Stmt) {I : World V → Prop} (hI : SendFrame I) :
    Proc.Triple I (execute env s) (fun _ w => I w ∧ s ∈ w.sent) I := by
  intro w hw
  have hstay := execute_triple env s
    (fun w hw => by simpa using hI w w.tables (w.clock + 1) [] hw)
    (fun w table t hw _ => hI w (Function.update w.tables table t) w.clock [s] hw) w hw
  rcases hrun : execute env s w with ⟨_ | _ | _, w'⟩ <;> rw [hrun] at hstay
  · obtain ⟨table, t, -, hw'⟩ := execute_ok hrun
    exact ⟨hstay, by rw [hw']; simp⟩
  · exact hstay
  · exact hstay

theorem executeAll_sent (env : Env V) (table : String) (stmts : List Stmt) {I : World V → Prop}
    (hI : SendFrame I) :
    Proc.Triple I (executeAll env table stmts) (fun _ w => I w ∧ ∀ s ∈ stmts, s ∈ w.sent) I := by
  have hloop : Proc.Triple (fun w => I w ∧ ∀ s ∈ ([] : List Stmt), s ∈ w.sent)
      (Proc.forEach (execute env) stmts) (fun _ w => I w ∧ ∀ s ∈ stmts, s ∈ w.sent) I := by
    refine Proc.Triple.forEach (I := fun pre w => I w ∧ ∀ s ∈ pre, s ∈ w.sent) fun pre s post _ => ?_
    have hframe : SendFrame fun w : World V => I w ∧ ∀ s ∈ pre, s ∈ w.sent :=
      fun w tables clock more hw => ⟨hI w tables clock more hw.1,
        fun s hs => List.mem_append_left _ (hw.2 s hs)⟩
    refine (execute_sent env s hframe).conseq (fun _ h => h) (fun _ w h => ⟨h.1.1, ?_⟩) fun _ h => h.1
    intro s' hs'
    rcases List.mem_append.mp hs' with hs' | hs'
    · exact h.1.2 s' hs'
    · rw [List.mem_singleton.mp hs']
      exact h.2
  exact (hloop.conseq (fun _ h => ⟨h, fun s hs => by simp at hs⟩) (fun _ _ h => h)
    fun _ h => h).mapErr

@[simp] theorem flushStmts_nil (b : WriteBuffer) (table : String) : flushStmts b table [] = [] := by
  unfold flushStmts insertStmts updateStmts deleteStmts
  cases b.tableColumns table <;> cases b.pkColumns table <;> simp [ofKind, deleteKeys]

theorem flushRows_nil (b : WriteBuffer) (env : Env V) (table : String) :
    flushRows b env table [] = pure () := by
  rw [flushRows_eq, flushStmts_nil, executeAll_nil]

/-- A finished `flush_table` is a run over the rows that were there, from and to worlds that differ
in the buffers and the counter only; it counts the rows. -/
theorem flushTable_rows {b : WriteBuffer} {env : Env V} {table : String} {w w' : World V} {n : ℕ}
    (h : flushTable b env table w = (.ok n, w')) :
    n = (rowsOf w table).length ∧ ∃ w₀ w₁, w₀.tables = w.tables ∧ w₀.sent = w.sent ∧
      flushRows b env table (rowsOf w table) w₀ = (.ok (), w₁) ∧
      w'.tables = w₁.tables ∧ w'.sent = w₁.sent := by
  obtain ⟨taken, w₀, htake, hflush⟩ := Proc.bind_ok_iff.mp h
  unfold take at htake
  unfold rowsOf
  cases hget : w.buffers.get table with
  | none =>
    rw [hget] at htake
    cases htake
    cases hflush
    exact ⟨rfl, w, w, rfl, rfl, by rw [Option.getD_none, flushRows_nil]; rfl, rfl, rfl⟩
  | some rows =>
    rw [hget] at htake
    cases htake
    let w₀ : World V := { w with buffers := w.buffers.insert table [] }
    unfold flushTaken at hflush
    dsimp only at hflush
    split_ifs at hflush with hempty
    · rw [List.isEmpty_iff] at hempty
      subst hempty
      cases hflush
      exact ⟨rfl, w₀, w₀, rfl, rfl, by rw [Option.getD_some, flushRows_nil]; rfl, rfl, rfl⟩
    · obtain ⟨_, w₁, hrows, hcount⟩ := Proc.bind_ok_iff.mp hflush
      cases hcount
      exact ⟨rfl, w₀, w₁, rfl, rfl, hrows, rfl, rfl⟩

/-- A `flush_table` that failed did so over the rows that were there, with its buffer empty. -/
theorem flushTable_rows_err {b : WriteBuffer} {env : Env V} {table : String} {w w' : World V}
    {e : DbError} (h : flushTable b env table w = (.err e, w')) :
    ∃ w₀, w₀.tables = w.tables ∧ w₀.sent = w.sent ∧ rowsOf w₀ table = [] ∧
      flushRows b env table (rowsOf w table) w₀ = (.err e, w') := by
  unfold rowsOf
  rcases Proc.bind_err_iff.mp h with htake | ⟨taken, w₀, htake, hflush⟩ <;> unfold take at htake
  · split at htake <;> cases htake
  · cases hget : w.buffers.get table with
    | none =>
      rw [hget] at htake
      cases htake
      cases hflush
    | some rows =>
      rw [hget] at htake
      cases htake
      unfold flushTaken at hflush
      dsimp only at hflush
      split_ifs at hflush
      · cases hflush
      · rcases Proc.bind_err_iff.mp hflush with hrows | ⟨_, w₁, -, hcount⟩
        · refine ⟨{ w with buffers := w.buffers.insert table [] }, rfl, rfl, ?_, hrows⟩
          rw [IndexMap.get_insert_self]
          rfl
        · cases hcount

/-- A finished `flush_table` has sent the statements of the rows that were there, and leaves the
other buffers alone. -/
theorem flushTable_holds (b : WriteBuffer) (env : Env V) (table : String) (B : String → List Row)
    {I : World V → Prop} (hI : SendFrame I)
    (hbuf : ∀ w buffers totalFlushed, I w → I { w with buffers, totalFlushed }) :
    Proc.Triple (fun w => Holds w B ∧ I w) (flushTable b env table)
      (fun _ w => Holds w (Function.update B table []) ∧ I w ∧
        ∀ s ∈ flushStmts b table (B table), s ∈ w.sent) I := by
  have htaken (w : World V) (hw : Holds w B ∧ I w) :
      Holds { w with buffers := w.buffers.insert table [] } (Function.update B table []) ∧
        I { w with buffers := w.buffers.insert table [] } := by
    refine ⟨fun t => ?_, hbuf w _ _ hw.2⟩
    rw [rowsOf_insert, Function.update_apply, hw.1 t]
  have hrowsOf (w : World V) (rows : List Row) (hw : Holds w B)
      (hget : w.buffers.get table = some rows) : B table = rows := by
    rw [← hw table, rowsOf, hget]
    rfl
  refine flushTable_triple (R := fun rows w => B table = rows ∧
    Holds w (Function.update B table []) ∧ I w) ?_ ?_ ?_ ?_
  · intro w hw hget
    have hB : B table = [] := by
      rw [← hw.1 table, rowsOf, hget]
      rfl
    have hsame : Function.update B table [] = B := by rw [← hB, Function.update_eq_self]
    rw [hsame, hB, flushStmts_nil]
    exact ⟨hw.1, hw.2, fun s hs => by simp at hs⟩
  · intro w hw hget
    rw [hrowsOf w [] hw.1 hget, flushStmts_nil]
    exact ⟨(htaken w hw).1, (htaken w hw).2, fun s hs => by simp at hs⟩
  · exact fun w rows hw hget => ⟨hrowsOf w rows hw.1 hget, htaken w hw⟩
  · intro rows _ w ⟨hB, hw⟩
    rw [hB]
    have hframe : SendFrame fun w : World V => Holds w (Function.update B table []) ∧ I w :=
      fun w tables clock more hw => ⟨hw.1, hI w tables clock more hw.2⟩
    exact ((executeAll_sent env table _ hframe).conseq (fun _ h => h)
      (fun _ w h => ⟨h.1.1, hbuf w w.buffers _ h.1.2, h.2⟩) fun _ h => h.2) w hw

theorem flushAll_holds (b : WriteBuffer) (env : Env V) (B : String → List Row)
    {I : World V → Prop} (hI : SendFrame I)
    (hbuf : ∀ w buffers totalFlushed, I w → I { w with buffers, totalFlushed }) :
    Proc.Triple (fun w => Holds w B ∧ I w) (flushAll b env)
      (fun _ w => Holds w (fun _ => []) ∧ I w ∧
        ∀ t, ∀ s ∈ flushStmts b t (B t), s ∈ w.sent) I := by
  refine (flushAll_triple (P := fun w => Holds w B ∧ I w) (E := I) (I := fun tables pre w =>
    Holds w (fun t => if t ∈ pre then [] else B t) ∧ (∀ t, t ∉ tables → B t = []) ∧ I w ∧
      ∀ t ∈ pre, ∀ s ∈ flushStmts b t (B t), s ∈ w.sent) ?_ ?_).conseq (fun _ h => h) ?_ fun _ h => h
  · intro w ⟨hB, hw⟩
    refine ⟨fun t => by simpa using hB t, fun t ht => ?_, hw, fun t ht => by simp at ht⟩
    rw [← hB t]
    exact rowsOf_of_not_mem_order env ht
  · intro tables pre table post _ w ⟨hB, hout, hw, hsent⟩
    have hframe : SendFrame fun w : World V =>
        I w ∧ ∀ t ∈ pre, ∀ s ∈ flushStmts b t (B t), s ∈ w.sent :=
      fun w tables clock more hw => ⟨hI w tables clock more hw.1,
        fun t ht s hs => List.mem_append_left _ (hw.2 t ht s hs)⟩
    refine ((flushTable_holds b env table _ hframe fun w _ _ hw => ⟨hbuf w _ _ hw.1, hw.2⟩).conseq
      (fun _ h => h) (fun _ w h => ?_) fun _ h => h.1) w ⟨hB, hw, hsent⟩
    obtain ⟨hB', ⟨hw', hsent'⟩, hnew⟩ := h
    refine ⟨fun t => ?_, hout, hw', fun t ht s hs => ?_⟩
    · rw [hB' t, Function.update_apply]
      by_cases ht : t = table <;> simp [ht]
    · by_cases hpre : t ∈ pre
      · exact hsent' t hpre s hs
      · have htable : t = table := by simpa [hpre] using ht
        subst htable
        apply hnew
        rw [if_neg hpre]
        exact hs
  · intro _ w ⟨tables, hB, hout, hw, hsent⟩
    have hin (t : String) : t ∈ tables ∨ B t = [] := by
      by_cases ht : t ∈ tables
      · exact .inl ht
      · exact .inr (hout t ht)
    refine ⟨fun t => ?_, hw, fun t s hs => ?_⟩
    · rw [hB t]
      rcases hin t with ht | ht <;> simp [ht]
    · rcases hin t with ht | ht
      · exact hsent t ht s hs
      · rw [ht, flushStmts_nil] at hs
        simp at hs

end WriteBuffer

end ForgeIndex
