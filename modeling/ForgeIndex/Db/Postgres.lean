import ForgeIndex.Lib.Proc
import ForgeIndex.Schema
import ForgeIndex.Db.Row
import ForgeIndex.Abi.Types

/-!
# Postgres as the indexer uses it

The user tables, their shadow tables and the checkpoints, with the meaning of the statements
that the write buffer and the reorg store send.  Names are taken up to the schema prefix, which
is the same in every statement.  What is decided outside the process is collected in `Env`.
-/

namespace ForgeIndex

/-- What becomes of a statement: Postgres runs it, Postgres refuses it, or the process is gone
before it is sent. -/
inductive Fate where
  | executed | rejected | killed
  deriving DecidableEq, Repr

/-- A stored row: the value of every column. -/
abbrev Tuple (V : Type) := String → Option V

/-- The rows of a table, oldest first. -/
abbrev Table (V : Type) := List (Tuple V)

theorem toInt_toInt64 {n : UInt64} (h : n.toNat < 2 ^ 63) : n.toInt64.toInt = n.toNat := by
  apply BitVec.toInt_eq_toNat_of_lt
  show 2 * n.toNat < 2 ^ 64
  omega

/-- A row of a `_reorg_` table: the columns of the main table, `_operation` and
`_block_number`. -/
structure ShadowRow (V : Type) where
  columns : Tuple V
  operation : String
  blockNumber : Int64

/-- The world outside the process. -/
structure Env (V : Type) where
  /-- The tables that `DatabaseManager::setup` created. -/
  schema : Schema
  /-- The value of a literal in a column of a table; `none` is `NULL`. -/
  value : String → String → String → Option V
  value_null : ∀ t c, value t c "NULL" = none
  /-- A value as the driver reads it into a `String`; `none` for a type that is not text. -/
  text : V → Option String
  /-- The fate of the n-th statement. -/
  fate : ℕ → Fate
  /-- The order in which a hash map with the given keys is walked at the n-th statement. -/
  order : ℕ → List String → List String
  order_perm : ∀ n ks, (order n ks).Perm ks
  /-- The order in which the n-th statement reads the rows of a shadow table. -/
  scan : ℕ → List (ShadowRow V) → List (ShadowRow V)
  scan_perm : ∀ n rs, (scan n rs).Perm rs

/-- The statements of the write path.  `insert` ends in `ON CONFLICT DO NOTHING`. -/
inductive Stmt where
  | insert (table : String) (columns : List String) (values : List (List String))
  | update (table : String) (sets : List (String × String)) (pkCol pkVal : String)
  | delete (table : String) (pkCol : String) (pkVals : List String)
  deriving DecidableEq

/-- `sqlx::Error`: the statement was refused, or a constraint was violated. -/
inductive SqlxError where
  | rejected | constraint
  deriving DecidableEq, Repr

/-- `DbError`, as far as the write path raises it. -/
inductive DbError where
  | flush (table : String) (source : SqlxError)
  | query (table : String) (source : SqlxError)
  | bufferFull (table : String)
  deriving DecidableEq, Repr

/-- The process and its database. -/
structure World (V : Type) where
  /-- `WriteBuffer::buffers`. -/
  buffers : IndexMap String (List Row)
  /-- The user tables. -/
  tables : String → Table V
  /-- The `_reorg_` tables, under the name of their main table. -/
  shadow : String → List (ShadowRow V)
  /-- `ponder_sync.checkpoints`: `last_indexed_block` by chain and contract. -/
  checkpoints : UInt64 × String → Option Int64
  /-- Statements sent so far, whatever became of them. -/
  clock : ℕ
  /-- The executed statements of the write path, oldest first. -/
  sent : List Stmt
  /-- `BufferMetrics::total_flushed`. -/
  totalFlushed : ℕ
  /-- The events handed to handler dispatch, each with the index of its range. -/
  dispatched : List (ℕ × DecodedEvent)
  /-- `BackfillProgress::per_chain`: total blocks, processed blocks, events. -/
  progress : UInt64 → Option (UInt64 × UInt64 × UInt64)

/-- A process that has just started on an empty database. -/
def World.fresh (V : Type) : World V :=
  ⟨IndexMap.empty, fun _ => [], fun _ => [], fun _ => none, 0, [], 0, [], fun _ => none⟩

/-- The text between the quotes of a string literal, with doubled quotes read once; any other
literal stands for itself. -/
def unquote (lit : String) : String :=
  match lit.toList with
  | '\'' :: cs => String.ofList (undouble cs.dropLast)
  | _ => lit
where
  undouble : List Char → List Char
    | '\'' :: '\'' :: cs => '\'' :: undouble cs
    | c :: cs => c :: undouble cs
    | [] => []

/-- A Postgres of text columns that runs every statement. -/
def plainEnv (schema : Schema) : Env String where
  schema := schema
  value _ _ lit := if lit = "NULL" then none else some (unquote lit)
  value_null _ _ := if_pos rfl
  text := some
  fate _ := .executed
  order _ ks := ks
  order_perm _ ks := List.Perm.refl ks
  scan _ rs := rs
  scan_perm _ rs := List.Perm.refl rs

variable {V : Type}

/-- The row that a `VALUES` list denotes. -/
def tupleOf (env : Env V) (table : String) (columns values : List String) : Tuple V := fun c =>
  (((columns.zip values).find? fun p => p.1 = c).map Prod.snd).bind (env.value table c)

/-- `SET`. -/
def setColumns (env : Env V) (table : String) (sets : List (String × String)) (r : Tuple V) :
    Tuple V := fun c =>
  match sets.find? fun p => p.1 = c with
  | some p => env.value table c p.2
  | none => r c

/-- Sending a statement: it may be refused, and the process may be gone before. -/
def send (env : Env V) : Proc (World V) SqlxError Unit := fun w =>
  match env.fate w.clock with
  | .killed => (.stopped, { w with clock := w.clock + 1 })
  | .rejected => (.err .rejected, { w with clock := w.clock + 1 })
  | .executed => (.ok (), { w with clock := w.clock + 1 })

theorem send_triple {I : World V → Prop} (env : Env V)
    (h : ∀ w, I w → I { w with clock := w.clock + 1 }) :
    Proc.Triple I (send env) (fun _ => I) I := by
  intro w hw
  unfold send
  split <;> exact h w hw

theorem send_of_executed {env : Env V} {w : World V} (h : env.fate w.clock = .executed) :
    send env w = (.ok (), { w with clock := w.clock + 1 }) := by
  unfold send
  rw [h]

theorem send_ok {env : Env V} {w w' : World V} (h : send env w = (.ok (), w')) :
    w' = { w with clock := w.clock + 1 } := by
  unfold send at h
  split at h <;> cases h
  rfl

variable [DecidableEq V]

/-- Two rows agree on a unique column set; `NULL` agrees with nothing. -/
def agreeOn (cs : List String) (r s : Tuple V) : Bool :=
  cs.all fun c => (r c).isSome && (r c == s c)

/-- The second row stands in the way of the first. -/
def conflicts (uniques : List (List String)) (r s : Tuple V) : Bool :=
  uniques.any fun cs => agreeOn cs r s

/-- One row of `INSERT ... ON CONFLICT DO NOTHING`. -/
def insertRow (uniques : List (List String)) (t : Table V) (r : Tuple V) : Table V :=
  if t.any (conflicts uniques r) then t else t ++ [r]

/-- `col = lit`; a comparison with `NULL` is not true. -/
def matchesKey (env : Env V) (table pkCol pkVal : String) (r : Tuple V) : Bool :=
  (r pkCol).isSome && (r pkCol == env.value table pkCol pkVal)

/-- An updated row stands in the way of another row. -/
def duplicates (uniques : List (List String)) (t : Table V) : Bool :=
  !decide (t.Pairwise fun r s => conflicts uniques r s = false)

/-- The rows after an `UPDATE`. -/
def updateRows (env : Env V) (table : String) (sets : List (String × String))
    (pkCol pkVal : String) (t : Table V) : Table V :=
  t.map fun r => if matchesKey env table pkCol pkVal r then setColumns env table sets r else r

/-- The rows after a `DELETE`. -/
def deleteRows (env : Env V) (table pkCol : String) (pkVals : List String) (t : Table V) :
    Table V :=
  t.filter fun r => !pkVals.any fun l => matchesKey env table pkCol l r

/-- The table a statement is about and what becomes of its rows; `none` when a `NOT NULL`
column would be left without a value or an `UPDATE` breaks a unique index. -/
def Stmt.effect (env : Env V) (tables : String → Table V) : Stmt → Option (String × Table V)
  | .insert table columns values => do
    let d ← env.schema.find table
    let rows := values.map (tupleOf env table columns)
    if rows.any (fun r => d.notNull.any fun c => (r c).isNone) then none
    else some (table, rows.foldl (insertRow d.uniqueSets) (tables table))
  | .update table sets pkCol pkVal => do
    let d ← env.schema.find table
    let rows := (tables table).filter (matchesKey env table pkCol pkVal)
    let t := updateRows env table sets pkCol pkVal (tables table)
    if rows.any (fun r => d.notNull.any fun c => (setColumns env table sets r c).isNone) ||
        duplicates d.uniqueSets t then none
    else some (table, t)
  | .delete table pkCol pkVals => do
    let _ ← env.schema.find table
    some (table, deleteRows env table pkCol pkVals (tables table))

/-- Every foreign key finds its row. -/
def refsHold (schema : Schema) (tables : String → Table V) : Bool :=
  schema.tables.all fun d => d.columns.all fun c =>
    match c.references with
    | none => true
    | some (refTable, refCol) => (tables d.name).all fun r =>
        (r c.name).isNone || (tables refTable).any fun s => s refCol == r c.name

/-- The change a statement makes, unless it breaks a constraint. -/
def change (env : Env V) (s : Stmt) : Proc (World V) SqlxError Unit := fun w =>
  match s.effect env w.tables with
  | none => (.err .constraint, w)
  | some (table, t) =>
    if refsHold env.schema (Function.update w.tables table t) then
      (.ok (), { w with tables := Function.update w.tables table t, sent := w.sent ++ [s] })
    else (.err .constraint, w)

/-- `sqlx::query(&sql).execute(&pool)`. -/
def execute (env : Env V) (s : Stmt) : Proc (World V) SqlxError Unit := do
  send env
  change env s

section Effect

variable {env : Env V} {tables : String → Table V} {table table' : String} {t : Table V}

theorem effect_insert {columns : List String} {values : List (List String)}
    (h : (Stmt.insert table columns values).effect env tables = some (table', t)) :
    ∃ d, env.schema.find table = some d ∧ table' = table ∧
      t = (values.map (tupleOf env table columns)).foldl (insertRow d.uniqueSets) (tables table) ∧
      ∀ v ∈ values, ∀ c ∈ d.notNull, (tupleOf env table columns v c).isSome := by
  simp only [Stmt.effect, Option.bind_eq_bind, Option.bind_eq_some_iff] at h
  obtain ⟨d, hd, h⟩ := h
  split at h
  · cases h
  · rename_i hnn
    cases h
    refine ⟨d, hd, rfl, rfl, fun v hv c hc => ?_⟩
    by_contra hnone
    apply hnn
    rw [List.any_map, List.any_eq_true]
    refine ⟨v, hv, List.any_eq_true.mpr ⟨c, hc, ?_⟩⟩
    simpa using hnone

theorem effect_update {sets : List (String × String)} {pkCol pkVal : String}
    (h : (Stmt.update table sets pkCol pkVal).effect env tables = some (table', t)) :
    table' = table ∧ t = updateRows env table sets pkCol pkVal (tables table) := by
  simp only [Stmt.effect, Option.bind_eq_bind, Option.bind_eq_some_iff] at h
  obtain ⟨d, -, h⟩ := h
  split at h
  · cases h
  · cases h
    exact ⟨rfl, rfl⟩

theorem effect_delete {pkCol : String} {pkVals : List String}
    (h : (Stmt.delete table pkCol pkVals).effect env tables = some (table', t)) :
    table' = table ∧ t = deleteRows env table pkCol pkVals (tables table) := by
  simp only [Stmt.effect, Option.bind_eq_bind, Option.bind_eq_some_iff] at h
  obtain ⟨d, -, h⟩ := h
  cases h
  exact ⟨rfl, rfl⟩

end Effect

theorem change_triple {I : World V → Prop} (env : Env V) (s : Stmt)
    (h : ∀ w table t, I w → s.effect env w.tables = some (table, t) →
      I { w with tables := Function.update w.tables table t, sent := w.sent ++ [s] }) :
    Proc.Triple I (change env s) (fun _ => I) I := by
  intro w hw
  unfold change
  split
  · exact hw
  · rename_i table t he
    split_ifs
    · exact h w table t hw he
    · exact hw

/-- An invariant of the rows and of the clock is an invariant of every statement. -/
theorem execute_triple {I : World V → Prop} (env : Env V) (s : Stmt)
    (hclock : ∀ w, I w → I { w with clock := w.clock + 1 })
    (heff : ∀ w table t, I w → s.effect env w.tables = some (table, t) →
      I { w with tables := Function.update w.tables table t, sent := w.sent ++ [s] }) :
    Proc.Triple I (execute env s) (fun _ => I) I :=
  (send_triple env hclock).bind fun _ => change_triple env s heff

theorem execute_refsHold (env : Env V) (s : Stmt) :
    Proc.Triple (fun w => refsHold env.schema w.tables = true) (execute env s)
      (fun _ w => refsHold env.schema w.tables = true)
      (fun w => refsHold env.schema w.tables = true) := by
  refine (send_triple env fun w hw => hw).bind fun _ w hw => ?_
  unfold change
  split
  · exact hw
  · split_ifs with hrefs
    · exact hrefs
    · exact hw

theorem execute_ok {env : Env V} {s : Stmt} {w w' : World V}
    (h : execute env s w = (.ok (), w')) :
    ∃ table t, s.effect env w.tables = some (table, t) ∧
      w' = { w with
        clock := w.clock + 1
        tables := Function.update w.tables table t
        sent := w.sent ++ [s] } := by
  obtain ⟨_, w₁, hsend, hchange⟩ := Proc.bind_ok_iff.mp h
  rw [send_ok hsend] at hchange
  unfold change at hchange
  split at hchange
  · cases hchange
  · rename_i table t he
    split at hchange
    · cases hchange
      exact ⟨table, t, he, rfl⟩
    · cases hchange

theorem execute_cases (env : Env V) (s : Stmt) (w : World V) :
    Proc.Triple (fun w' => w' = w) (execute env s)
      (fun _ w' => ∃ table t, s.effect env w.tables = some (table, t) ∧
        w' = { w with
          clock := w.clock + 1
          tables := Function.update w.tables table t
          sent := w.sent ++ [s] })
      (fun w' => w' = { w with clock := w.clock + 1 }) := by
  intro w' hw
  subst hw
  have hstay : ((execute env s w').1 = .ok () ∨
      (execute env s w').2 = { w' with clock := w'.clock + 1 }) := by
    change (Proc.bind (send env) (fun _ => change env s) w').1 = _ ∨
      (Proc.bind (send env) (fun _ => change env s) w').2 = _
    unfold Proc.bind send
    cases env.fate w'.clock with
    | killed => exact .inr rfl
    | rejected => exact .inr rfl
    | executed =>
      dsimp only [change]
      split
      · exact .inr rfl
      · split_ifs
        · exact .inl rfl
        · exact .inr rfl
  rcases hrun : execute env s w' with ⟨_ | _ | _, w₁⟩ <;> rw [hrun] at hstay
  · exact execute_ok hrun
  · exact hstay.resolve_left (by simp)
  · exact hstay.resolve_left (by simp)

end ForgeIndex
