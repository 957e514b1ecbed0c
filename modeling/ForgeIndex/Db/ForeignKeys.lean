import Mathlib.Data.List.Infix
import ForgeIndex.Db.Taken

/-!
# Foreign keys and the order of a flush

`flush_all` walks the buffers in the order of the map, while the rows were inserted in the order of
the program.
-/

namespace ForgeIndex

variable {V : Type} [DecidableEq V]

/-- A row refers to the rows of a table that have the value in a column. -/
def Refers (d : TableDef) (r : Tuple V) (u uc : String) (v : V) : Prop :=
  ∃ c ∈ d.columns, c.references = some (u, uc) ∧ r c.name = some v

theorem refsHold_iff (schema : Schema) (tables : String → Table V) :
    refsHold schema tables = true ↔ ∀ d ∈ schema.tables, ∀ r ∈ tables d.name, ∀ u uc v,
      Refers d r u uc v → ∃ s ∈ tables u, s uc = some v := by
  unfold refsHold Refers
  rw [List.all_eq_true]
  refine forall₂_congr fun d _ => ?_
  rw [List.all_eq_true]
  constructor
  · rintro h r hr u uc v ⟨c, hc, href, hv⟩
    have hcol := h c hc
    rw [href] at hcol
    have hrow := List.all_eq_true.mp hcol r hr
    rw [hv] at hrow
    simpa using hrow
  · intro h c hc
    cases href : c.references with
    | none => rfl
    | some p =>
      refine List.all_eq_true.mpr fun r hr => ?_
      cases hv : r c.name with
      | none => rfl
      | some v => simpa using h r hr p.1 p.2 v ⟨c, hc, href, hv⟩

theorem refsHold_update {schema : Schema} (hs : validateSchema schema = []) {d : TableDef}
    (hd : d ∈ schema.tables) {tables : String → Table V} {t : Table V}
    (hrefs : refsHold schema tables = true) (hgrow : tables d.name ⊆ t)
    (hown : ∀ r ∈ t, ∀ u uc v, Refers d r u uc v →
      ∃ s ∈ Function.update tables d.name t u, s uc = some v) :
    refsHold schema (Function.update tables d.name t) = true := by
  rw [refsHold_iff]
  intro e he r hr u uc v hrefers
  by_cases hname : e.name = d.name
  · -- an accepted schema has one table of that name
    have hfind := find_of_mem hs he
    rw [hname, find_of_mem hs hd] at hfind
    cases hfind
    rw [Function.update_self] at hr
    exact hown r hr u uc v hrefers
  · rw [Function.update_of_ne hname] at hr
    obtain ⟨s, hmem, hv⟩ := (refsHold_iff schema tables).mp hrefs e he r hr u uc v hrefers
    refine ⟨s, ?_, hv⟩
    by_cases hu : u = d.name
    · subst hu
      rw [Function.update_self]
      exact hgrow hmem
    · rwa [Function.update_of_ne hu]

namespace WriteBuffer

/-- Every `NOT NULL` column of the rows has a value. -/
def Complete (env : Env V) (d : TableDef) (rows : List Row) : Prop :=
  ∀ r ∈ rows, ∀ c ∈ d.notNull,
    (tupleOf env d.name d.columnNames (d.columnNames.map r.literal) c).isSome

section Inserts

variable {env : Env V} {d : TableDef} {tables : String → Table V} {rows : List Row}

/-- A batched insert goes through `NOT NULL` exactly when its rows are complete. -/
theorem insertStmt_effect_iff (hd : env.schema.find d.name = some d)
    (hkind : ∀ r ∈ rows, r.kind = .insert) {table : String} {t : Table V} :
    (insertStmt d.name d.columnNames rows).effect env tables = some (table, t) ↔
      Complete env d rows ∧ table = d.name ∧ t = grown env d rows (tables d.name) := by
  unfold grown
  rw [insertedTuples_of_inserts hkind]
  constructor
  · intro h
    obtain ⟨d', hd', rfl, rfl, hnotNull⟩ := effect_insert h
    rw [hd] at hd'
    cases hd'
    refine ⟨fun r hr => hnotNull _ (List.mem_map_of_mem hr), rfl, ?_⟩
    rw [List.map_map]
    rfl
  · rintro ⟨hcomplete, rfl, rfl⟩
    simp only [insertStmt, Stmt.effect, hd, Option.bind_eq_bind, Option.bind_some, List.map_map]
    refine if_neg fun hany => ?_
    obtain ⟨_, hrow, hcols⟩ := List.any_eq_true.mp hany
    obtain ⟨r, hr, rfl⟩ := List.mem_map.mp hrow
    obtain ⟨c, hc, hnone⟩ := List.any_eq_true.mp hcols
    have hsome := hcomplete r hr c hc
    rw [Option.isNone_iff_eq_none] at hnone
    rw [show tupleOf env d.name d.columnNames (d.columnNames.map r.literal) c = none from hnone]
      at hsome
    exact absurd hsome Bool.false_ne_true

end Inserts

/-- A row is inserted at once; one that a `NOT NULL` column refuses changes nothing. -/
def insertNow (b : WriteBuffer) (env : Env V) (tables : String → Table V) (op : String × Row) :
    String → Table V :=
  match (b.tableColumns op.1).bind fun cols => (insertStmt op.1 cols [op.2]).effect env tables with
  | some (table, t) => Function.update tables table t
  | none => tables

def insertInTurn (b : WriteBuffer) (env : Env V) (tables : String → Table V)
    (ops : List (String × Row)) : String → Table V :=
  ops.foldl (insertNow b env) tables

/-- The references hold all the time while the rows are inserted in their order. -/
def InOrder (b : WriteBuffer) (env : Env V) (tables : String → Table V)
    (ops : List (String × Row)) : Prop :=
  ∀ done ∈ ops.inits, refsHold env.schema (insertInTurn b env tables done) = true

instance (b : WriteBuffer) (env : Env V) (tables : String → Table V)
    (ops : List (String × Row)) : Decidable (InOrder b env tables ops) :=
  inferInstanceAs (Decidable (∀ done ∈ ops.inits, _))

/-- The rows of one table. -/
def rowsInto (table : String) (ops : List (String × Row)) : List Row :=
  (ops.filter fun op => op.1 = table).map Prod.snd

section InTurn

variable {env : Env V} {d : TableDef} {pk : String}

omit [DecidableEq V] in
theorem rowsInto_cons (table : String) (op : String × Row) (ops : List (String × Row)) :
    rowsInto table (op :: ops) =
      if op.1 = table then op.2 :: rowsInto table ops else rowsInto table ops := by
  unfold rowsInto
  by_cases h : op.1 = table <;> simp [h]

theorem grown_append (xs ys : List Row) (t : Table V) :
    grown env d (xs ++ ys) t = grown env d ys (grown env d xs t) := by
  unfold grown insertedTuples ofKind
  rw [List.filter_append, List.map_append, FirstWins.insertAllNew_append]

theorem insertNow_of_ne {b : WriteBuffer} {op : String × Row} {table : String}
    (h : op.1 ≠ table) (tables : String → Table V) :
    insertNow b env tables op table = tables table := by
  unfold insertNow
  cases hcols : b.tableColumns op.1 with
  | none => rfl
  | some cols =>
    cases heff : (insertStmt op.1 cols [op.2]).effect env tables with
    | none => simp [heff]
    | some p =>
      obtain ⟨_, -, htable, -⟩ := effect_insert heff
      simp [heff, htable, Function.update_of_ne h.symm]

theorem insertNow_complete (hs : validateSchema env.schema = []) (hd : d ∈ env.schema.tables)
    {row : Row} (hkind : row.kind = .insert) (hcomplete : Complete env d [row])
    (tables : String → Table V) :
    insertNow (new env.schema) env tables (d.name, row) d.name =
      grown env d [row] (tables d.name) := by
  obtain ⟨pk, hpk⟩ := pk_of_validateSchema hs hd
  have heff : (insertStmt d.name d.columnNames [row]).effect env tables =
      some (d.name, grown env d [row] (tables d.name)) :=
    (insertStmt_effect_iff (find_of_mem hs hd)
      (fun r hr => List.mem_singleton.mp hr ▸ hkind)).mpr ⟨hcomplete, rfl, rfl⟩
  unfold insertNow
  rw [(new_of_mem hs hd hpk).1, Option.bind_some, heff]
  exact Function.update_self _ _ _

theorem insertInTurn_complete (hs : validateSchema env.schema = []) (hd : d ∈ env.schema.tables)
    {ops : List (String × Row)} (hkind : ∀ op ∈ ops, op.2.kind = .insert)
    (hcomplete : Complete env d (rowsInto d.name ops)) (tables : String → Table V) :
    insertInTurn (new env.schema) env tables ops d.name =
      grown env d (rowsInto d.name ops) (tables d.name) := by
  induction ops generalizing tables with
  | nil => rfl
  | cons op ops ih =>
    have ih := fun hcomplete => ih (fun op hop => hkind op (List.mem_cons_of_mem _ hop)) hcomplete
      (insertNow (new env.schema) env tables op)
    obtain ⟨table, row⟩ := op
    rw [rowsInto_cons] at hcomplete ⊢
    show insertInTurn (new env.schema) env (insertNow (new env.schema) env tables (table, row)) ops
      d.name = _
    by_cases htable : table = d.name
    · subst htable
      rw [if_pos rfl] at hcomplete ⊢
      have hrow : Complete env d [row] := fun r hr =>
        hcomplete r (List.mem_cons.mpr (.inl (List.mem_singleton.mp hr)))
      rw [ih fun r hr => hcomplete r (List.mem_cons_of_mem _ hr),
        insertNow_complete hs hd (hkind _ List.mem_cons_self) hrow, ← grown_append]
      rfl
    · rw [if_neg htable] at hcomplete ⊢
      rw [ih hcomplete, insertNow_of_ne htable]

omit [DecidableEq V] in
theorem rowsOf_inserts {b : WriteBuffer} {ops : List (String × Row)} {w w' : World V}
    (h : Proc.forEach (fun op => insert b op.1 op.2) ops w = (.ok (), w')) :
    w'.tables = w.tables ∧ ∀ table, rowsOf w' table = rowsOf w table ++ rowsInto table ops := by
  induction ops generalizing w with
  | nil =>
    cases h
    exact ⟨rfl, fun table => (List.append_nil _).symm⟩
  | cons op ops ih =>
    obtain ⟨w₁, hfirst, hrest⟩ := Proc.forEach_cons_ok_iff.mp h
    obtain ⟨htables, hrows⟩ := ih hrest
    unfold insert at hfirst
    split_ifs at hfirst
    · cases hfirst
    · cases hfirst
      refine ⟨htables, fun table => ?_⟩
      rw [hrows, rowsOf_insert, rowsInto_cons]
      by_cases htable : table = op.1
      · subst htable
        simp
      · rw [if_neg htable, if_neg fun h => htable h.symm]

end InTurn

section Walk

variable {b : WriteBuffer} {env : Env V} {table : String} {rows : List Row} {w w' : World V}

omit [DecidableEq V] in
theorem flushStmts_inserts (hkind : ∀ r ∈ rows, r.kind = .insert) :
    flushStmts b table rows = insertStmts b table rows := by
  have hnone (k : Row.Kind) (hk : k ≠ .insert) : ofKind k rows = [] :=
    List.filter_eq_nil_iff.mpr fun r hr h => hk ((of_decide_eq_true h).symm.trans (hkind r hr))
  unfold flushStmts updateStmts deleteStmts
  rw [hnone .update (by decide), hnone .delete (by decide)]
  cases b.tableColumns table <;> cases b.pkColumns table <;> simp [deleteKeys]

omit [DecidableEq V] in
theorem mem_insertStmts {s : Stmt} (h : s ∈ insertStmts b table rows) :
    ∃ cols, b.tableColumns table = some cols ∧ insertStmts b table rows = [s] ∧
      s = insertStmt table cols (ofKind .insert rows) := by
  unfold insertStmts at h ⊢
  cases hcols : b.tableColumns table with
  | none =>
    rw [hcols] at h
    cases h
  | some cols =>
    rw [hcols] at h
    dsimp only at h ⊢
    split_ifs at h ⊢
    · cases h
    · rw [List.mem_singleton.mp h]
      exact ⟨cols, rfl, rfl, rfl⟩

/-- The references hold, no row is gone, and what has not been walked over is as it was. -/
structure Walked (schema : Schema) (w : World V) (done : List String) (w' : World V) : Prop where
  refs : refsHold schema w'.tables = true
  kept : ∀ u, w.tables u ⊆ w'.tables u
  rest : ∀ table, table ∉ done → w'.tables table = w.tables table ∧ rowsOf w' table = rowsOf w table

theorem executeAll_inserts (hrefs : refsHold env.schema w.tables = true)
    (hkind : ∀ r ∈ rows, r.kind = .insert)
    (h : executeAll env table (flushStmts b table rows) w = (.ok (), w')) :
    refsHold env.schema w'.tables = true ∧ (∀ u, w.tables u ⊆ w'.tables u) ∧
      ∀ u, u ≠ table → w'.tables u = w.tables u := by
  rw [flushStmts_inserts hkind] at h
  let I : World V → Prop := fun w' => refsHold env.schema w'.tables = true ∧
    (∀ u, w.tables u ⊆ w'.tables u) ∧ ∀ u, u ≠ table → w'.tables u = w.tables u
  refine (executeAll_triple (I := I) fun s hs => ?_).of_ok
    ⟨hrefs, fun u => List.Subset.refl _, fun u _ => rfl⟩ h
  refine (execute_refsHold env s).and (execute_triple env s (fun _ hw => hw) ?_)
  intro w₁ table' t ⟨hkept, hothers⟩ heff
  obtain ⟨cols, -, -, rfl⟩ := mem_insertStmts hs
  obtain ⟨d, -, rfl, rfl, -⟩ := effect_insert heff
  constructor
  · intro u
    show w.tables u ⊆ Function.update w₁.tables table' _ u
    by_cases hu : u = table'
    · subst hu
      rw [Function.update_self]
      exact List.Subset.trans (hkept u)
        (@FirstWins.prefix_insertAllNew _ (conflicts d.uniqueSets) _ _).subset
    · rw [Function.update_of_ne hu]
      exact hkept u
  · intro u hu
    exact (Function.update_of_ne hu _ _).trans (hothers u hu)

theorem Walked.next {done : List String} {w₁ w₂ : World V} {n : ℕ}
    (h : Walked env.schema w done w₁) (hkind : ∀ r ∈ rowsOf w table, r.kind = .insert)
    (hnew : table ∉ done) (hflush : flushTable b env table w₁ = (.ok n, w₂)) :
    Walked env.schema w (done ++ [table]) w₂ := by
  obtain ⟨-, w₀, w₃, hstart, -, hrows, hend, -⟩ := flushTable_rows hflush
  rw [flushRows_eq, (h.rest table hnew).2] at hrows
  obtain ⟨hrefs, hkept, hothers⟩ := executeAll_inserts (hstart ▸ h.refs) hkind hrows
  have hholds := ((flushTable_holds b env table (rowsOf w₁) (I := fun _ => True)
    (fun _ _ _ _ _ => trivial) fun _ _ _ _ => trivial).of_ok
    ⟨fun _ => rfl, trivial⟩ hflush).1
  constructor
  · rw [hend]
    exact hrefs
  · intro u
    rw [hend]
    exact List.Subset.trans (h.kept u) (hstart ▸ hkept u)
  · intro u hu
    rw [List.mem_append, List.mem_singleton, not_or] at hu
    rw [hend, hothers u hu.2, hstart, hholds u, Function.update_of_ne hu.2]
    exact h.rest u hu.1

theorem Walked.loop {stats stats' : IndexMap String ℕ} {done tables : List String} {w₁ w₂ : World V}
    (h : Walked env.schema w done w₁) (hkind : ∀ table, ∀ r ∈ rowsOf w table, r.kind = .insert)
    (hnodup : (done ++ tables).Nodup)
    (hloop : Proc.foldEach (flushNext b env) stats tables w₁ = (.ok stats', w₂)) :
    Walked env.schema w (done ++ tables) w₂ := by
  induction tables generalizing done stats w₁ with
  | nil =>
    cases hloop
    rwa [List.append_nil]
  | cons table tables ih =>
    obtain ⟨stats₁, w₃, hfirst, hrest⟩ := Proc.foldEach_cons_ok_iff.mp hloop
    obtain ⟨n, w₄, hflush, hpure⟩ := Proc.bind_ok_iff.mp hfirst
    cases hpure
    rw [List.append_cons] at hnodup ⊢
    have hnew : table ∉ done := fun hmem =>
      (List.nodup_append.mp (List.nodup_append.mp hnodup).1).2.2 table hmem table
        (List.mem_singleton_self _) rfl
    exact ih (h.next (hkind table) hnew hflush) hnodup hrest

theorem flushTable_inserts_err {e : DbError} (hkind : ∀ r ∈ rowsOf w table, r.kind = .insert)
    (h : flushTable b env table w = (.err e, w')) :
    (∃ source, e = .flush table source) ∧ w'.tables = w.tables := by
  obtain ⟨w₀, hstart, -, -, hrows⟩ := flushTable_rows_err h
  rw [flushRows_eq, flushStmts_inserts hkind] at hrows
  obtain ⟨done, s, rest, hstmts, -, -⟩ := executeAll_err hrows
  obtain ⟨-, -, hone, -⟩ := mem_insertStmts
    (show s ∈ insertStmts b table (rowsOf w table) by rw [hstmts]; simp)
  rw [hone, executeAll_singleton] at hrows
  obtain ⟨source, hexec, he⟩ := Proc.mapErr_err_iff.mp hrows
  rw [execute_err hexec]
  exact ⟨⟨source, he⟩, hstart⟩

end Walk

/-- The same database, where the map is walked in another order and the statements have other
fates. -/
def walking (env : Env V) (fate : ℕ → Fate) (order : ℕ → List String → List String)
    (hperm : ∀ n ks, (order n ks).Perm ks) : Env V :=
  { env with fate, order, order_perm := hperm }

/-- Postgres accepts the rows of the statement, but not the references. -/
def BreaksReference (env : Env V) (tables : String → Table V) (s : Stmt) : Prop :=
  ∃ table t, s.effect env tables = some (table, t) ∧
    refsHold env.schema (Function.update tables table t) = false

/-- In no order of the walk does `flush_all` end at a statement that breaks a reference. -/
def RespectsReferences (env : Env V) (w : World V) : Prop :=
  ∀ fate order hperm table w',
    flushAll (new env.schema) (walking env fate order hperm) w =
      (.err (.flush table .constraint), w') →
    ∀ s ∈ flushStmts (new env.schema) table (rowsOf w table), ¬BreaksReference env w'.tables s

/-- The rows that an insert adds to a table refer, outside of the table, to rows that Postgres
has before the flush. -/
def ParentsStored (env : Env V) (w : World V) : Prop :=
  ∀ d ∈ env.schema.tables, Complete env d (rowsOf w d.name) →
    ∀ r ∈ grown env d (rowsOf w d.name) (w.tables d.name), ∀ u uc v, Refers d r u uc v →
      u ≠ d.name → ∃ s ∈ w.tables u, s uc = some v

section EveryOrder

variable {env : Env V} {w : World V}

theorem execute_of_breaks {s : Stmt} (hfate : env.fate w.clock = .executed)
    (hbreaks : BreaksReference env w.tables s) :
    execute env s w = (.err .constraint, { w with clock := w.clock + 1 }) := by
  obtain ⟨table, t, heff, hrefs⟩ := hbreaks
  refine (Proc.bind_of_ok (send_of_executed hfate)).trans ?_
  dsimp only [change]
  rw [heff]
  exact if_neg (by rw [hrefs]; exact Bool.false_ne_true)

theorem flushTable_of_breaks {b : WriteBuffer} {table : String} {s : Stmt}
    (hfate : ∀ n, env.fate n = .executed)
    (hstmts : flushStmts b table (rowsOf w table) = [s])
    (hbreaks : BreaksReference env w.tables s) :
    ∃ w', flushTable b env table w = (.err (.flush table .constraint), w') ∧
      w'.tables = w.tables := by
  unfold rowsOf at hstmts
  cases hget : w.buffers.get table with
  | none =>
    rw [hget, Option.getD_none, flushStmts_nil] at hstmts
    cases hstmts
  | some rows =>
    rw [hget, Option.getD_some] at hstmts
    let w₀ : World V := { w with buffers := w.buffers.insert table [] }
    have htake : take table w = (.ok (some rows), w₀) := by
      unfold take
      rw [hget]
    have hne : ¬rows.isEmpty = true := by
      intro hempty
      rw [List.isEmpty_iff.mp hempty, flushStmts_nil] at hstmts
      cases hstmts
    have hexec := execute_of_breaks (w := w₀) (hfate _) hbreaks
    refine ⟨{ w₀ with clock := w₀.clock + 1 }, (Proc.bind_of_ok htake).trans ?_, rfl⟩
    unfold flushTaken
    dsimp only
    rw [if_neg hne, flushRows_eq, hstmts, executeAll_singleton]
    exact Proc.bind_err_iff.mpr (.inl (Proc.mapErr_err_iff.mpr ⟨_, hexec, rfl⟩))

variable {d : TableDef} {ops : List (String × Row)}

theorem InOrder.self_refs {tables : String → Table V}
    (h : InOrder (new env.schema) env tables ops) (hs : validateSchema env.schema = [])
    (hd : d ∈ env.schema.tables) (hkind : ∀ op ∈ ops, op.2.kind = .insert)
    (hcomplete : Complete env d (rowsInto d.name ops)) {r : Tuple V}
    (hr : r ∈ grown env d (rowsInto d.name ops) (tables d.name)) {uc : String} {v : V}
    (hrefers : Refers d r d.name uc v) :
    ∃ s ∈ grown env d (rowsInto d.name ops) (tables d.name), s uc = some v := by
  have hend := (refsHold_iff _ _).mp (h ops ((List.mem_inits _ _).mpr (List.prefix_refl ops)))
  have hsame := insertInTurn_complete hs hd hkind hcomplete tables
  rw [← hsame] at hr ⊢
  exact hend d hd r hr d.name uc v hrefers

/-- A table whose parents are stored can be flushed whatever was flushed before it. -/
theorem Walked.refsHold_grown {done : List String} {w₁ : World V}
    (h : Walked env.schema w done w₁) (hs : validateSchema env.schema = [])
    (hd : d ∈ env.schema.tables) (hcomplete : Complete env d (rowsOf w d.name))
    (hparents : ParentsStored env w)
    (hself : ∀ r ∈ grown env d (rowsOf w d.name) (w.tables d.name), ∀ uc v,
      Refers d r d.name uc v →
      ∃ s ∈ grown env d (rowsOf w d.name) (w.tables d.name), s uc = some v)
    (hnew : d.name ∉ done) :
    refsHold env.schema (Function.update w₁.tables d.name
      (grown env d (rowsOf w d.name) (w.tables d.name))) = true := by
  refine refsHold_update hs hd h.refs ?_ fun r hr u uc v hrefers => ?_
  · rw [(h.rest d.name hnew).1]
    exact (FirstWins.prefix_insertAllNew _ _).subset
  · by_cases hu : u = d.name
    · subst hu
      rw [Function.update_self]
      exact hself r hr uc v hrefers
    · rw [Function.update_of_ne hu]
      obtain ⟨s, hmem, hv⟩ := hparents d hd hcomplete r hr u uc v hrefers hu
      exact ⟨s, h.kept u hmem, hv⟩

omit [DecidableEq V] in
theorem flushStmts_table (hs : validateSchema env.schema = []) (hd : d ∈ env.schema.tables)
    (hkind : ∀ r ∈ rowsOf w d.name, r.kind = .insert) (hrows : rowsOf w d.name ≠ []) :
    flushStmts (new env.schema) d.name (rowsOf w d.name) =
      [insertStmt d.name d.columnNames (rowsOf w d.name)] := by
  obtain ⟨pk, hpk⟩ := pk_of_validateSchema hs hd
  rw [flushStmts_inserts hkind]
  unfold insertStmts
  rw [(new_of_mem hs hd hpk).1, ofKind_of_forall hkind]
  exact if_neg (mt List.isEmpty_iff.mp hrows)

theorem flushAll_walked {fate : ℕ → Fate} {order : ℕ → List String → List String}
    {hperm : ∀ n ks, (order n ks).Perm ks} {table : String} {w' : World V}
    (hkind : ∀ table, ∀ r ∈ rowsOf w table, r.kind = .insert)
    (hrefs : refsHold env.schema w.tables = true)
    (h : flushAll (new env.schema) (walking env fate order hperm) w =
      (.err (.flush table .constraint), w')) :
    ∃ done w₁, Walked env.schema w done w₁ ∧ table ∉ done ∧ w'.tables = w₁.tables := by
  obtain ⟨done, name, rest, stats, w₁, horder, hdone, hnext⟩ := Proc.foldEach_err
    (show Proc.foldEach (flushNext (new env.schema) (walking env fate order hperm)) IndexMap.empty
      (order w.clock w.buffers.keys) w = _ from h)
  have hnodup : (done ++ name :: rest).Nodup := by
    rw [← horder]
    exact (hperm _ _).nodup_iff.mpr w.buffers.nodup
  have hstart : Walked (walking env fate order hperm).schema w [] w :=
    ⟨hrefs, fun u => List.Subset.refl _, fun _ _ => ⟨rfl, rfl⟩⟩
  have hwalked : Walked env.schema w done w₁ :=
    hstart.loop hkind (List.nodup_append.mp hnodup).1 hdone
  have hnew : name ∉ done := fun hmem =>
    (List.nodup_append.mp hnodup).2.2 name hmem name List.mem_cons_self rfl
  rcases Proc.bind_err_iff.mp hnext with hflush | ⟨_, _, -, hpure⟩
  · obtain ⟨⟨source, he⟩, htables⟩ := flushTable_inserts_err
      (by rw [(hwalked.rest name hnew).2]; exact hkind name) hflush
    cases he
    exact ⟨done, w₁, hwalked, hnew, htables⟩
  · cases hpure

/-- The order in which one table comes first. -/
def firstOf (table : String) (_ : ℕ) (keys : List String) : List String :=
  if table ∈ keys then table :: keys.erase table else keys

theorem firstOf_perm (table : String) (n : ℕ) (keys : List String) :
    (firstOf table n keys).Perm keys := by
  unfold firstOf
  split_ifs with h
  · exact (List.perm_cons_erase h).symm
  · exact List.Perm.refl keys

/-- The flush of a table that comes first and breaks a reference is the end of the walk. -/
theorem flushAll_firstOf {s : Stmt}
    (hstmts : flushStmts (new env.schema) d.name (rowsOf w d.name) = [s])
    (hbreaks : BreaksReference env w.tables s) :
    ∃ w', flushAll (new env.schema)
        (walking env (fun _ => .executed) (firstOf d.name) (firstOf_perm d.name)) w =
        (.err (.flush d.name .constraint), w') ∧ w'.tables = w.tables := by
  obtain ⟨w', hflush, htables⟩ : ∃ w', flushTable (new env.schema)
      (walking env (fun _ => .executed) (firstOf d.name) (firstOf_perm d.name)) d.name w =
      (.err (.flush d.name .constraint), w') ∧ w'.tables = w.tables :=
    flushTable_of_breaks (fun _ => rfl) hstmts hbreaks
  have hmem : d.name ∈ w.buffers.keys := by
    rw [IndexMap.mem_keys_iff]
    cases hget : w.buffers.get d.name with
    | none =>
      unfold rowsOf at hstmts
      rw [hget, Option.getD_none, flushStmts_nil] at hstmts
      cases hstmts
    | some rows => rfl
  refine ⟨w', ?_, htables⟩
  show Proc.foldEach (flushNext (new env.schema) _) IndexMap.empty
    (firstOf d.name w.clock w.buffers.keys) w = _
  unfold firstOf
  rw [if_pos hmem]
  exact Proc.bind_err_iff.mpr (.inl (Proc.bind_err_iff.mpr (.inl hflush)))

theorem parentsStored_of_respects (hs : validateSchema env.schema = [])
    (hkind : ∀ table, ∀ r ∈ rowsOf w table, r.kind = .insert)
    (hrefs : refsHold env.schema w.tables = true) (hrespects : RespectsReferences env w) :
    ParentsStored env w := by
  intro d hd hcomplete r hr u uc v hrefers hu
  by_cases hnone : rowsOf w d.name = []
  · rw [hnone] at hr
    exact (refsHold_iff _ _).mp hrefs d hd r hr u uc v hrefers
  have heff : (insertStmt d.name d.columnNames (rowsOf w d.name)).effect env w.tables =
      some (d.name, grown env d (rowsOf w d.name) (w.tables d.name)) :=
    (insertStmt_effect_iff (find_of_mem hs hd) (hkind d.name)).mpr ⟨hcomplete, rfl, rfl⟩
  cases hgrown : refsHold env.schema (Function.update w.tables d.name
      (grown env d (rowsOf w d.name) (w.tables d.name))) with
  | true =>
    have hfind := (refsHold_iff _ _).mp hgrown d hd r (by rwa [Function.update_self]) u uc v hrefers
    rwa [Function.update_of_ne hu] at hfind
  | false =>
    have hbreaks : BreaksReference env w.tables
        (insertStmt d.name d.columnNames (rowsOf w d.name)) := ⟨_, _, heff, hgrown⟩
    have hstmts := flushStmts_table hs hd (hkind d.name) hnone
    obtain ⟨w', hall, htables⟩ := flushAll_firstOf hstmts hbreaks
    exact absurd (htables ▸ hbreaks)
      (hrespects _ _ _ _ _ hall _ (by rw [hstmts]; exact List.mem_singleton_self _))

theorem respects_of_parentsStored (hs : validateSchema env.schema = [])
    (hkind : ∀ table, ∀ r ∈ rowsOf w table, r.kind = .insert)
    (hrefs : refsHold env.schema w.tables = true)
    (hself : ∀ d ∈ env.schema.tables, Complete env d (rowsOf w d.name) →
      ∀ r ∈ grown env d (rowsOf w d.name) (w.tables d.name), ∀ uc v, Refers d r d.name uc v →
      ∃ s ∈ grown env d (rowsOf w d.name) (w.tables d.name), s uc = some v)
    (hparents : ParentsStored env w) : RespectsReferences env w := by
  intro fate order hperm table w' hall s hstmt ⟨table', t, heff, hbroken⟩
  obtain ⟨done, w₁, hwalked, hnew, htables⟩ := flushAll_walked hkind hrefs hall
  cases hfind : env.schema.find table with
  | none =>
    rw [flushStmts_of_find_none hfind] at hstmt
    cases hstmt
  | some d =>
    obtain ⟨hd, rfl⟩ := mem_of_find hfind
    have hrows : rowsOf w d.name ≠ [] := by
      intro hnone
      rw [hnone, flushStmts_nil] at hstmt
      cases hstmt
    rw [flushStmts_table hs hd (hkind d.name) hrows] at hstmt
    rw [List.mem_singleton.mp hstmt] at heff
    obtain ⟨hcomplete, rfl, rfl⟩ := (insertStmt_effect_iff hfind (hkind d.name)).mp heff
    rw [htables, (hwalked.rest d.name hnew).1,
      hwalked.refsHold_grown hs hd hcomplete hparents (hself d hd hcomplete) hnew] at hbroken
    cases hbroken

/-- Flushing inserts that were accepted in their order meets no broken reference in any order of
the walk exactly when every row refers, outside of its table, to rows that Postgres has before. -/
theorem flushAll_respects_iff (hs : validateSchema env.schema = []) {w₀ : World V}
    (hbuffered : Proc.forEach (fun op => insert (new env.schema) op.1 op.2) ops w₀ = (.ok (), w))
    (hempty : ∀ table, rowsOf w₀ table = []) (hkind : ∀ op ∈ ops, op.2.kind = .insert)
    (horder : InOrder (new env.schema) env w₀.tables ops) :
    RespectsReferences env w ↔ ParentsStored env w := by
  obtain ⟨htables, hrows⟩ := rowsOf_inserts hbuffered
  rw [← htables] at horder
  have hrowsOf (table : String) : rowsOf w table = rowsInto table ops := by
    rw [hrows, hempty, List.nil_append]
  have hinserts (table : String) : ∀ r ∈ rowsOf w table, r.kind = .insert := by
    intro r hr
    rw [hrowsOf] at hr
    obtain ⟨op, hop, rfl⟩ := List.mem_map.mp hr
    exact hkind op (List.mem_filter.mp hop).1
  have hrefs : refsHold env.schema w.tables = true :=
    horder [] ((List.mem_inits _ _).mpr List.nil_prefix)
  constructor
  · exact parentsStored_of_respects hs hinserts hrefs
  · refine respects_of_parentsStored hs hinserts hrefs fun d hd hcomplete r hr uc v hrefers => ?_
    rw [hrowsOf] at hcomplete hr ⊢
    exact horder.self_refs hs hd hkind hcomplete hr hrefers

end EveryOrder

/-- `transfers(id, account)`, where `account` is the id of an account. -/
def transfersTable : TableDef where
  name := "transfers"
  columns := [{ name := "id", primaryKey := true },
    { name := "account", references := some ("accounts", "id") }]

def transfersSchema : Schema := ⟨[accountsTable, transfersTable]⟩

/-- An account, and then a transfer of it. -/
def accountThenTransfer : List (String × Row) :=
  [("accounts", accountRow "a" "5"),
    ("transfers", (Row.new.insert "id" (.text "t")).insert "account" (.text "a"))]

/-- The process after it has buffered the rows. -/
def transfersWorld : World String :=
  (Proc.forEach (fun op => insert (new transfersSchema) op.1 op.2) accountThenTransfer
    (World.fresh String)).2

theorem flushAll_respects_iff_transfer :
    RespectsReferences (plainEnv transfersSchema) transfersWorld ↔
      ParentsStored (plainEnv transfersSchema) transfersWorld := by
  have hbuffered : Proc.forEach (fun op => insert (new transfersSchema) op.1 op.2)
      accountThenTransfer (World.fresh String) = (.ok (), transfersWorld) := rfl
  exact flushAll_respects_iff (by decide) hbuffered (fun _ => rfl) (by decide) (by decide)

/-- The map is walked with the transfer first. -/
theorem flushAll_not_respects :
    ¬∀ (env : Env String) (ops : List (String × Row)) (w₀ w : World String),
      validateSchema env.schema = [] → (∀ op ∈ ops, op.2.kind = .insert) →
      (∀ table, rowsOf w₀ table = []) →
      Proc.forEach (fun op => insert (new env.schema) op.1 op.2) ops w₀ = (.ok (), w) →
      InOrder (new env.schema) env w₀.tables ops → RespectsReferences env w := by
  intro h
  have hrespects := h (plainEnv transfersSchema) accountThenTransfer (World.fresh String)
    transfersWorld (by decide) (by decide) (fun _ => rfl) rfl (by decide)
  refine hrespects (fun _ => .executed) (firstOf "transfers") (firstOf_perm "transfers")
    "transfers" _ rfl _ (List.mem_singleton_self _) ⟨_, _, rfl, ?_⟩
  decide

end WriteBuffer

end ForgeIndex
