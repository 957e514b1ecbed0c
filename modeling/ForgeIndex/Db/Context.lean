import ForgeIndex.Api.Graphql.Values
import ForgeIndex.Db.Flush
import ForgeIndex.Sync.Types

/-!
# Writes of indexing handlers

`forge-index-db/src/context.rs`: the builders of `DbContext` that put rows into the write buffer.  The
row that a chain of calls leaves in the buffer is all that a flush reads; the value of `where_pk` is
one of its columns.
-/

namespace ForgeIndex

/-- The texts of the values that are kept as texts. -/
structure Shown where
  float : Float → String
  json : JsonValue → String

def jsonToColumnValue (shown : Shown) : JsonValue → ColumnValue
  | .null => .null
  | .bool b => .boolean b
  | .number n =>
    match n.asI64 with
    | some i => .bigInt i
    | none =>
      match n.asF64 with
      | some f => .float (shown.float f)
      | none => .text n.display
  | .string s => .text s
  | other => .json (shown.json other)

structure InsertBuilder where
  table : String
  row : Row

inductive InsertCall where
  | values (json : JsonValue)
  | row (row : Row)

namespace InsertBuilder

/-- `DbContext::insert`. -/
def new (table : String) : InsertBuilder := ⟨table, Row.new⟩

def call (shown : Shown) (b : InsertBuilder) : InsertCall → InsertBuilder
  | .values (.object map) =>
    { b with row := map.foldl (fun row m => row.insert m.1 (jsonToColumnValue shown m.2)) b.row }
  | .values _ => b
  | .row row => { b with row }

def execute (b : InsertBuilder) : Write := .insert b.table b.row

end InsertBuilder

structure UpdateBuilder where
  table : String
  row : Row
  pkValue : Option ColumnValue

inductive UpdateCall where
  | set (col : String) (val : ColumnValue)
  | wherePk (col : String) (val : ColumnValue)

namespace UpdateBuilder

/-- `DbContext::update`. -/
def new (table : String) : UpdateBuilder := ⟨table, Row.new, none⟩

def call (b : UpdateBuilder) : UpdateCall → UpdateBuilder
  | .set col val => { b with row := b.row.insert col val }
  | .wherePk col val => { b with row := b.row.insert col val, pkValue := some val }

def execute (b : UpdateBuilder) : Write := .update b.table b.row (b.pkValue.getD .null)

end UpdateBuilder

structure DeleteBuilder where
  table : String
  pkCol : Option String
  pkValue : Option ColumnValue

namespace DeleteBuilder

/-- `DbContext::delete`. -/
def new (table : String) : DeleteBuilder := ⟨table, none, none⟩

def where_ (b : DeleteBuilder) (col : String) (val : ColumnValue) : DeleteBuilder :=
  { b with pkCol := some col, pkValue := some val }

def execute (b : DeleteBuilder) : Write :=
  .delete b.table (b.pkCol.getD "") (b.pkValue.getD .null)

end DeleteBuilder

/-- The calls behind one `insert`, `update` or `delete` of a context. -/
inductive WriteChain where
  | insert (calls : List InsertCall)
  | update (calls : List UpdateCall)
  | delete (calls : List (String × ColumnValue))

/-- What `execute` does at the end of the calls. -/
def WriteChain.write (shown : Shown) (table : String) : WriteChain → Write
  | .insert calls => (calls.foldl (InsertBuilder.call shown) (.new table)).execute
  | .update calls => (calls.foldl UpdateBuilder.call (.new table)).execute
  | .delete calls => (calls.foldl (fun b c => b.where_ c.1 c.2) (DeleteBuilder.new table)).execute

/-- A change of one row: the values that are given for columns, the key among them. -/
structure Ask where
  kind : Row.Kind
  given : String → Option ColumnValue

/-- The value that was given last. -/
def lastGiven (pairs : List (String × ColumnValue)) (c : String) : Option ColumnValue :=
  (pairs.reverse.find? fun p => p.1 = c).map Prod.snd

/-- `set` and `where_pk` give a value alike. -/
def UpdateCall.pair : UpdateCall → String × ColumnValue
  | .set col val | .wherePk col val => (col, val)

/-- A row replaces what has been given before it, the members of an object do not. -/
def InsertCall.given (shown : Shown) (before : Ask) : InsertCall → Ask
  | .values (.object map) =>
    { before with given := fun c => (lastGiven
        (map.map fun m => (m.1, jsonToColumnValue shown m.2)) c).or (before.given c) }
  | .values _ => before
  | .row r => ⟨r.kind, r.get⟩

/-- Without a call of `where_`, a delete is about the column without a name. -/
def WriteChain.ask (shown : Shown) : WriteChain → Ask
  | .insert calls => calls.foldl (InsertCall.given shown) ⟨.insert, fun _ => none⟩
  | .update calls => ⟨.update, lastGiven (calls.map UpdateCall.pair)⟩
  | .delete calls =>
    let last := calls.getLast?.getD ("", .null)
    ⟨.delete, fun c => if c = last.1 then some last.2 else none⟩

/-- The row has the values that the ask gives. -/
def Ask.Of (a : Ask) (r : Row) : Prop := r.kind = a.kind ∧ ∀ c, r.get c = a.given c

theorem get_insert (r : Row) (col c : String) (v : ColumnValue) :
    (r.insert col v).get c = if c = col then some v else r.get c :=
  IndexMap.get_insert _ _ _ _

theorem lastGiven_append (pairs : List (String × ColumnValue)) (col c : String) (v : ColumnValue) :
    lastGiven (pairs ++ [(col, v)]) c = if c = col then some v else lastGiven pairs c := by
  unfold lastGiven
  rw [List.reverse_append]
  by_cases hc : c = col
  · simp [hc]
  · have hcol : col ≠ c := fun h => hc h.symm
    simp [hc, hcol]

theorem get_foldl_insert (pairs : List (String × ColumnValue)) (r : Row) (c : String) :
    (pairs.foldl (fun row m => row.insert m.1 m.2) r).get c =
      (lastGiven pairs c).or (r.get c) := by
  induction pairs using List.reverseRecOn with
  | nil => rfl
  | append_singleton pairs p ih =>
    rw [List.foldl_append, lastGiven_append]
    show (Row.insert _ p.1 p.2).get c = _
    rw [get_insert, ih]
    split_ifs <;> rfl

theorem kind_foldl_insert (pairs : List (String × ColumnValue)) (r : Row) :
    (pairs.foldl (fun row m => row.insert m.1 m.2) r).kind = r.kind := by
  induction pairs generalizing r with
  | nil => rfl
  | cons p pairs ih => exact (ih _).trans rfl

theorem InsertBuilder.of_call (shown : Shown) {b : InsertBuilder} {a : Ask} (h : a.Of b.row)
    (c : InsertCall) : (c.given shown a).Of (b.call shown c).row := by
  cases c with
  | row r => exact ⟨rfl, fun _ => rfl⟩
  | values json =>
    cases json with
    | object map =>
      have hfold : map.foldl (fun row m => row.insert m.1 (jsonToColumnValue shown m.2)) b.row =
          (map.map fun m => (m.1, jsonToColumnValue shown m.2)).foldl
            (fun row m => row.insert m.1 m.2) b.row := by rw [List.foldl_map]
      show Ask.Of _ (map.foldl (fun row m => row.insert m.1 (jsonToColumnValue shown m.2)) b.row)
      rw [hfold]
      refine ⟨(kind_foldl_insert _ _).trans h.1, fun col => ?_⟩
      rw [get_foldl_insert, h.2]
      rfl
    | _ => exact h

theorem InsertBuilder.of_foldl (shown : Shown) (calls : List InsertCall) {b : InsertBuilder}
    {a : Ask} (h : a.Of b.row) :
    (calls.foldl (InsertCall.given shown) a).Of (calls.foldl (call shown) b).row := by
  induction calls generalizing a b with
  | nil => exact h
  | cons c calls ih => exact ih (of_call shown h c)

theorem UpdateBuilder.row_foldl (calls : List UpdateCall) (b : UpdateBuilder) :
    (calls.foldl call b).row =
      (calls.map UpdateCall.pair).foldl (fun row m => row.insert m.1 m.2) b.row := by
  induction calls generalizing b with
  | nil => rfl
  | cons c calls ih =>
    rw [List.foldl_cons, ih, List.map_cons, List.foldl_cons]
    cases c <;> rfl

theorem DeleteBuilder.foldl_where (calls : List (String × ColumnValue)) (b : DeleteBuilder) :
    calls.foldl (fun b c => b.where_ c.1 c.2) b =
      match calls.getLast? with
      | none => b
      | some c => b.where_ c.1 c.2 := by
  induction calls using List.reverseRecOn with
  | nil => rfl
  | append_singleton calls c ih =>
    rw [List.foldl_append, ih, List.getLast?_concat]
    cases calls.getLast? <;> rfl

theorem WriteChain.of_write (shown : Shown) (table : String) (c : WriteChain) :
    (c.ask shown).Of (c.write shown table).row := by
  cases c with
  | insert calls =>
    have hnew : Ask.Of ⟨.insert, fun _ => none⟩ (InsertBuilder.new table).row :=
      ⟨rfl, fun _ => rfl⟩
    exact InsertBuilder.of_foldl shown calls hnew
  | update calls =>
    refine ⟨if_pos rfl, fun col => ?_⟩
    show (calls.foldl UpdateBuilder.call (.new table)).row.get col = _
    rw [UpdateBuilder.row_foldl, get_foldl_insert]
    exact Option.or_none
  | delete calls =>
    refine ⟨rfl, fun col => ?_⟩
    show (Row.new.insert _ _).get col = _
    rw [DeleteBuilder.foldl_where, get_insert]
    unfold ask
    dsimp only
    cases calls.getLast? <;> rfl

variable {V : Type} (env : Env V) (d : TableDef) (pk : String)

namespace Ask

/-- The row that an insert asks for. -/
def tuple (a : Ask) : Tuple V := fun c =>
  if c ∈ d.columnNames then env.value d.name c (((a.given c).map Row.toSqlLiteral).getD "NULL")
  else none

/-- The values of an update, less that of the key. -/
def assigned (a : Ask) (r : Tuple V) : Tuple V := fun c =>
  match a.given c with
  | some v => if c ∈ d.columnNames ∧ c ≠ pk then env.value d.name c (Row.toSqlLiteral v) else r c
  | none => r c

/-- The row has the key that was given; without one it is no row. -/
def names [DecidableEq V] (a : Ask) (r : Tuple V) : Bool :=
  (a.given pk).any fun v => matchesKey env d.name pk (Row.toSqlLiteral v) r

end Ask

/-- The changes of one kind. -/
def asksOf (k : Row.Kind) (asks : List Ask) : List Ask := asks.filter fun a => a.kind = k

variable [DecidableEq V]

/-- First the inserts that stand in the way of no row, next the updates, and the deletes last. -/
def flushed (asks : List Ask) (t : Table V) : Table V :=
  let inserted := FirstWins.insertAllNew (conflicts d.uniqueSets) t
    ((asksOf .insert asks).map (Ask.tuple env d))
  let updated := (asksOf .update asks).foldl (fun t a => t.map fun r =>
    if a.names env d pk r then a.assigned env d pk r else r) inserted
  updated.filter fun r => !(asksOf .delete asks).any fun a => a.names env d pk r

section Phases

variable {env d pk} {asks : List Ask} {rows : List Row} {w w' : World V}

omit [DecidableEq V] in
theorem Ask.tuple_eq {a : Ask} {r : Row} (h : a.Of r) :
    tupleOf env d.name d.columnNames (d.columnNames.map r.literal) = a.tuple env d := by
  funext c
  rw [tupleOf_literals, Ask.tuple, ← h.2]
  rfl

omit [DecidableEq V] in
theorem Ask.setColumns_eq {a : Ask} {r : Row} (h : a.Of r) (x : Tuple V) :
    setColumns env d.name (WriteBuffer.updateSets d.columnNames pk r) x = a.assigned env d pk x := by
  funext c
  rw [setColumns_updateSets, Ask.assigned, KeyedOps.assign, h.2]
  cases a.given c with
  | none => split_ifs <;> rfl
  | some v => split_ifs <;> rfl

theorem Ask.names_eq {a : Ask} {r : Row} (h : a.Of r) (x : Tuple V) :
    matchesKey env d.name pk (r.literal pk) x = a.names env d pk x := by
  unfold Ask.names Row.literal
  rw [h.2]
  cases a.given pk with
  | none => exact matchesKey_of_none (env.value_null _ _) x
  | some v => rfl

theorem of_asksOf (h : List.Forall₂ Ask.Of asks rows) (k : Row.Kind) :
    List.Forall₂ Ask.Of (asksOf k asks) (WriteBuffer.ofKind k rows) := by
  apply List.rel_filter _ h
  intro a r hr
  show decide (a.kind = k) = true ↔ decide (r.kind = k) = true
  rw [hr.1]

omit [DecidableEq V] in
theorem map_tuple (h : List.Forall₂ Ask.Of asks rows) :
    (rows.map fun r => tupleOf env d.name d.columnNames (d.columnNames.map r.literal)) =
      asks.map (Ask.tuple env d) := by
  induction h with
  | nil => rfl
  | cons hr _ ih => rw [List.map_cons, List.map_cons, ih, Ask.tuple_eq hr]

theorem flushUpdate_asked {a : Ask} {r : Row} (hr : a.Of r)
    (h : WriteBuffer.flushUpdate env d.name d.columnNames pk r w = (.ok (), w')) :
    w'.tables d.name = (w.tables d.name).map fun x =>
      if a.names env d pk x then a.assigned env d pk x else x := by
  have hrows : updateRows env d.name (WriteBuffer.updateSets d.columnNames pk r) pk (r.literal pk)
      (w.tables d.name) = (w.tables d.name).map fun x =>
        if a.names env d pk x then a.assigned env d pk x else x := by
    unfold updateRows
    simp only [Ask.names_eq hr, Ask.setColumns_eq hr]
  rw [← hrows]
  unfold WriteBuffer.flushUpdate at h
  split_ifs at h with hnone
  · -- nothing to set, and no statement either
    rw [List.isEmpty_iff] at hnone
    cases h
    have hid (x : Tuple V) : setColumns env d.name [] x = x := rfl
    rw [hnone]
    simp [updateRows, hid]
  · obtain ⟨table, t, heff, hw⟩ := execute_ok (Proc.mapErr_ok_iff.mp h)
    obtain ⟨rfl, rfl⟩ := effect_update heff
    rw [hw]
    exact Function.update_self _ _ _

theorem flushUpdates_asked (hall : List.Forall₂ Ask.Of asks rows)
    (h : WriteBuffer.flushUpdates env d.name d.columnNames pk rows w = (.ok (), w')) :
    w'.tables d.name = asks.foldl (fun t a => t.map fun x =>
      if a.names env d pk x then a.assigned env d pk x else x) (w.tables d.name) := by
  induction hall generalizing w with
  | nil =>
    cases h
    rfl
  | cons hr _ ih =>
    obtain ⟨w₁, hfirst, hrest⟩ := Proc.forEach_cons_ok_iff.mp h
    rw [ih hrest, flushUpdate_asked hr hfirst]
    rfl

theorem any_deleteKeys (hall : List.Forall₂ Ask.Of asks rows) (x : Tuple V) :
    ((WriteBuffer.deleteKeys pk rows).any fun l => matchesKey env d.name pk l x) =
      asks.any fun a => a.names env d pk x := by
  unfold WriteBuffer.deleteKeys
  induction hall with
  | nil => rfl
  | @cons a r asks rows hr _ ih =>
    rw [List.any_cons, ← ih]
    unfold Ask.names
    rw [← hr.2]
    cases hget : r.get pk <;> simp [hget]

theorem flushDeletes_asked (hall : List.Forall₂ Ask.Of asks rows)
    (h : WriteBuffer.flushDeletes env d.name pk rows w = (.ok (), w')) :
    w'.tables d.name = (w.tables d.name).filter fun x =>
      !asks.any fun a => a.names env d pk x := by
  have hrows : deleteRows env d.name pk (WriteBuffer.deleteKeys pk rows) (w.tables d.name) =
      (w.tables d.name).filter fun x => !asks.any fun a => a.names env d pk x := by
    unfold deleteRows
    simp only [any_deleteKeys hall]
  rw [← hrows]
  unfold WriteBuffer.flushDeletes at h
  split_ifs at h with hnone
  · rw [List.isEmpty_iff] at hnone
    cases h
    simp [hnone, deleteRows]
  · obtain ⟨table, t, heff, hw⟩ := execute_ok (Proc.mapErr_ok_iff.mp h)
    obtain ⟨rfl, rfl⟩ := effect_delete heff
    rw [hw]
    exact Function.update_self _ _ _

theorem flushRows_asked (hd : env.schema.find d.name = some d) (hpk : d.pk = some pk)
    {b : WriteBuffer} (hcols : b.tableColumns d.name = some d.columnNames)
    (hpkb : b.pkColumns d.name = some pk) (hall : List.Forall₂ Ask.Of asks rows)
    (h : WriteBuffer.flushRows b env d.name rows w = (.ok (), w')) :
    w'.tables d.name = flushed env d pk asks (w.tables d.name) := by
  obtain ⟨_, w₁, hinserts, h⟩ := Proc.bind_ok_iff.mp h
  obtain ⟨_, w₂, hupdates, hdeletes⟩ := Proc.bind_ok_iff.mp h
  simp only [WriteBuffer.insertPhase, hcols] at hinserts
  simp only [WriteBuffer.updatePhase, hcols, hpkb] at hupdates
  simp only [WriteBuffer.deletePhase, hpkb] at hdeletes
  have hkind : ∀ r ∈ WriteBuffer.ofKind .insert rows, r.kind = .insert :=
    fun r hr => WriteBuffer.kind_of_mem_ofKind hr
  obtain ⟨hgrown, -⟩ := flushInserts_grown hd hpk hkind hinserts
  rw [flushDeletes_asked (of_asksOf hall .delete) hdeletes,
    flushUpdates_asked (of_asksOf hall .update) hupdates, hgrown, grown,
    insertedTuples_of_inserts hkind, map_tuple (of_asksOf hall .insert)]
  rfl

end Phases

omit [DecidableEq V] in
theorem Write.execute_ok {b : WriteBuffer} {x : Write} {w w₁ : World V}
    (h : x.execute b w = (.ok (), w₁)) : w₁ = { w with
      buffers := w.buffers.insert x.table (WriteBuffer.rowsOf w x.table ++ [x.row]) } := by
  cases x with
  | insert t r =>
    unfold execute WriteBuffer.insert at h
    dsimp only at h
    split_ifs at h
    · cases h
    · exact (congrArg Prod.snd h).symm
  | update t r v => exact (congrArg Prod.snd h).symm
  | delete t c v => exact (congrArg Prod.snd h).symm

theorem foldl_frame {σ γ α : Type} {f : σ → γ → σ} {g : σ → α} (hf : ∀ s c, g (f s c) = g s)
    (cs : List γ) (s : σ) : g (cs.foldl f s) = g s := by
  induction cs generalizing s with
  | nil => rfl
  | cons c cs ih => exact (ih (f s c)).trans (hf s c)

theorem WriteChain.table_write (shown : Shown) (table : String) (c : WriteChain) :
    (c.write shown table).table = table := by
  cases c with
  | insert calls =>
    have htable (b : InsertBuilder) (c : InsertCall) : (b.call shown c).table = b.table := by
      cases c with
      | row r => rfl
      | values json => cases json <;> rfl
    exact foldl_frame htable calls (.new table)
  | update calls =>
    have htable (b : UpdateBuilder) (c : UpdateCall) : (b.call c).table = b.table := by
      cases c <;> rfl
    exact foldl_frame htable calls (.new table)
  | delete calls =>
    have htable (b : DeleteBuilder) (c : String × ColumnValue) :
        (b.where_ c.1 c.2).table = b.table := rfl
    exact foldl_frame htable calls (.new table)

omit [DecidableEq V] in
/-- The rows of the chains stand in the buffer, in the order of their `execute`. -/
theorem WriteChain.buffered (shown : Shown) (b : WriteBuffer) (table : String)
    {chains : List WriteChain} {w w₁ : World V}
    (h : Proc.forEach (fun c : WriteChain => (c.write shown table).execute b) chains w =
      (.ok (), w₁)) :
    w₁.tables = w.tables ∧ WriteBuffer.rowsOf w₁ table =
      WriteBuffer.rowsOf w table ++ chains.map fun c => (c.write shown table).row := by
  induction chains generalizing w with
  | nil =>
    cases h
    exact ⟨rfl, (List.append_nil _).symm⟩
  | cons c chains ih =>
    obtain ⟨w₂, hfirst, hrest⟩ := Proc.forEach_cons_ok_iff.mp h
    obtain ⟨htables, hrows⟩ := ih hrest
    have hw := Write.execute_ok hfirst
    rw [c.table_write] at hw
    refine ⟨?_, ?_⟩
    · rw [htables, hw]
    · rw [hrows, hw, WriteBuffer.rowsOf_insert, if_pos rfl, List.append_assoc]
      rfl

/-- Chains of calls, and a flush behind them: the table is changed as the calls ask for, each chain as
one change of the row with the key that its calls give. -/
theorem WriteChain.flushed_of_writes (shown : Shown) {env : Env V} {d : TableDef} {pk : String}
    (hs : validateSchema env.schema = []) (hd : d ∈ env.schema.tables) (hpk : d.pk = some pk)
    {chains : List WriteChain} {w w' : World V} {n : ℕ} (hempty : WriteBuffer.rowsOf w d.name = [])
    (h : (do
      Proc.forEach (fun c : WriteChain => (c.write shown d.name).execute (.new env.schema)) chains
      WriteBuffer.flushTable (.new env.schema) env d.name : Proc (World V) DbError ℕ) w =
        (.ok n, w')) :
    n = chains.length ∧
      w'.tables d.name = flushed env d pk (chains.map (WriteChain.ask shown)) (w.tables d.name) := by
  obtain ⟨_, w₁, hwrites, hflush⟩ := Proc.bind_ok_iff.mp h
  obtain ⟨htables, hrows⟩ := WriteChain.buffered shown _ _ hwrites
  rw [hempty, List.nil_append] at hrows
  obtain ⟨hcols, hpkb⟩ := WriteBuffer.new_of_mem hs hd hpk
  obtain ⟨hcount, w₂, w₃, hstart, -, hrun, hend, -⟩ := WriteBuffer.flushTable_rows hflush
  rw [hrows] at hcount hrun
  have hall : List.Forall₂ Ask.Of (chains.map (WriteChain.ask shown))
      (chains.map fun c => (c.write shown d.name).row) := by
    rw [List.forall₂_map_left_iff, List.forall₂_map_right_iff, List.forall₂_same]
    exact fun c _ => c.of_write shown d.name
  refine ⟨?_, ?_⟩
  · rw [hcount, List.length_map]
  · rw [hend, flushRows_asked (find_of_mem hs hd) hpk hcols hpkb hall hrun, hstart, htables]

def balanceChains : List WriteChain :=
  [.update [.set "balance" (.text "7"), .wherePk "id" (.text "a")],
    .update [.set "id" (.text "b"), .wherePk "balance" (.text "8")],
    .update [.wherePk "balance" (.text "9")]]

def emptyAccount (id : String) : Tuple String := fun c =>
  if c = "id" then some id else if c = "balance" then some "0" else none

def emptyAccounts : World String :=
  { World.fresh String with tables := fun _ => [emptyAccount "a", emptyAccount "b"] }

def balanceRun : Ended DbError ℕ × World String :=
  (do
    Proc.forEach (fun c : WriteChain => (c.write ⟨fun _ => "", fun _ => ""⟩
      accountsTable.name).execute (.new (plainEnv ⟨[accountsTable]⟩).schema)) balanceChains
    WriteBuffer.flushTable (.new (plainEnv ⟨[accountsTable]⟩).schema) (plainEnv ⟨[accountsTable]⟩)
      accountsTable.name : Proc (World String) DbError ℕ) emptyAccounts

/-- `where_pk` on another column is an assignment, and without the key no row is changed. -/
theorem WriteChain.flushed_of_writes_balances :
    balanceRun.1 = .ok 3 ∧
      (balanceRun.2.tables "accounts").map (fun r => r "balance") = [some "7", some "8"] ∧
      balanceRun.2.tables accountsTable.name = flushed (plainEnv ⟨[accountsTable]⟩) accountsTable "id"
        (balanceChains.map (WriteChain.ask ⟨fun _ => "", fun _ => ""⟩))
        (emptyAccounts.tables accountsTable.name) := by
  have hrun : balanceRun.1 = .ok 3 := by decide +kernel
  have hempty : WriteBuffer.rowsOf emptyAccounts accountsTable.name = [] := by decide +kernel
  have hvalid : validateSchema (plainEnv ⟨[accountsTable]⟩).schema = [] := by decide +kernel
  have hpk : accountsTable.pk = some "id" := by decide +kernel
  have hend := Prod.mk.eta (p := balanceRun)
  rw [hrun] at hend
  refine ⟨hrun, by decide +kernel, ?_⟩
  exact (WriteChain.flushed_of_writes ⟨fun _ => "", fun _ => ""⟩ hvalid
    (List.mem_singleton_self accountsTable) hpk hempty hend.symm).2

end ForgeIndex
