import ForgeIndex.Api.Graphql.Values
import ForgeIndex.Api.Sql.Panics
import ForgeIndex.Lib.Hex

/-!
# The SQL executor

`forge-index-api/src/sql/executor.rs`: one validated query in a transaction of its own, and its rows
as JSON objects.  What the database replies to the statements is given.
-/

namespace ForgeIndex

namespace Sql

/-- A column of a `PgRow` by the type that it is read at.  Everything that is read at `String` is of
the last kind; a value is missing if it is `NULL` or cannot be read. -/
inductive PgValue where
  | bool (v : Option Bool)
  | int2 (v : Option Int16)
  | int4 (v : Option Int32)
  | int8 (v : Option Int64)
  | float4 (v : Option Float)
  | float8 (v : Option Float)
  | numeric (v : Option String)
  | json (v : Option JsonValue)
  | bytea (v : Option Bytes)
  | text (v : Option String)

/-- The arms of `row_to_json`. -/
def PgValue.toJson : PgValue → JsonValue
  | .bool v => (v.map .bool).getD .null
  | .int2 v => (v.map fun i => .number (.ofI64 i.toInt64)).getD .null
  | .int4 v => (v.map fun i => .number (.ofI64 i.toInt64)).getD .null
  | .int8 v => (v.map fun i => .number (.ofI64 i)).getD .null
  | .float4 v => ((v.bind Number.fromF64).map .number).getD .null
  | .float8 v => ((v.bind Number.fromF64).map .number).getD .null
  | .numeric v => (v.map .string).getD .null
  | .json v => v.getD .null
  | .bytea v => (v.map fun bs => .string (String.ofList ('0' :: 'x' :: Hex.encode bs))).getD .null
  | .text v => (v.map .string).getD .null

/-- The rows of a query; all have the columns of the query. -/
structure PgRows where
  names : List String
  rows : List (List PgValue)
  width : ∀ r ∈ rows, r.length = names.length

def rowToJson (columns : List String) (row : List PgValue) : JsonValue :=
  .object (SortedMap.collect (columns.zip (row.map PgValue.toJson)))

structure SqlResult where
  columns : List String
  rows : List JsonValue
  rowCount : ℕ
  executionTimeMs : UInt64

/-- What `execute_sql` returns for the rows of the query. -/
def sqlResult (result : PgRows) (elapsed : UInt64) : SqlResult :=
  if result.rows.isEmpty then ⟨[], [], 0, elapsed⟩
  else
    let jsonRows := result.rows.map (rowToJson result.names)
    ⟨result.names, jsonRows, jsonRows.length, elapsed⟩

/-- A statement on the connection of a transaction. -/
inductive Statement where
  | begin
  | setLocal (text : String)
  | query (text : List Char)
  | rollback
  deriving DecidableEq

/-- What the database replies: to `BEGIN`, to the timeout, and to the query, errors by their text;
and how long all of it takes. -/
structure Replies where
  beginError : Option String
  timeoutError : Option String
  query : Except String PgRows
  elapsed : UInt64

/-- The errors of the executor, `SqlError::Timeout` and `SqlError::Database`. -/
inductive ExecError where
  | timeout
  | database (text : String)
  deriving DecidableEq

def defaultTimeoutMs : UInt64 := 5000

def timeoutSql (timeoutMs : Option UInt64) : String :=
  "SET LOCAL statement_timeout = '" ++ toString (timeoutMs.getD defaultTimeoutMs) ++ "ms'"

/-- `execute_sql`: the result, and the statements of the transaction.  A transaction that is dropped
is rolled back. -/
def executeSql (db : Replies) (sql : ValidatedSql) (timeoutMs : Option UInt64) :
    Except ExecError SqlResult × List Statement :=
  match db.beginError with
  | some e => (.error (.database e), [])
  | none =>
    match db.timeoutError with
    | some e => (.error (.database e), [.begin, .setLocal (timeoutSql timeoutMs), .rollback])
    | none =>
      (match db.query with
        | .error e =>
          if Text.contains "statement timeout".toList e.toList ||
              Text.contains "canceling statement due to statement timeout".toList e.toList then
            .error .timeout
          else .error (.database e)
        | .ok result => .ok (sqlResult result db.elapsed),
      [.begin, .setLocal (timeoutSql timeoutMs), .query sql.sanitised, .rollback])

/-- The statements of a transaction for a query. -/
inductive Transaction (timeoutMs : Option UInt64) (sanitised : List Char) :
    List Statement → Prop
  | refused : Transaction timeoutMs sanitised []
  | unlimited :
      Transaction timeoutMs sanitised [.begin, .setLocal (timeoutSql timeoutMs), .rollback]
  | asked : Transaction timeoutMs sanitised
      [.begin, .setLocal (timeoutSql timeoutMs), .query sanitised, .rollback]

theorem executeSql_transaction (db : Replies) (sql : ValidatedSql) (timeoutMs : Option UInt64) :
    Transaction timeoutMs sql.sanitised (executeSql db sql timeoutMs).2 := by
  unfold executeSql
  cases db.beginError with
  | some e => exact .refused
  | none =>
    cases db.timeoutError with
    | some e => exact .unlimited
    | none => exact .asked

theorem executeSql_ok_iff (db : Replies) (sql : ValidatedSql) (timeoutMs : Option UInt64)
    (r : SqlResult) : (executeSql db sql timeoutMs).1 = .ok r ↔
      db.beginError = none ∧ db.timeoutError = none ∧
        ∃ result, db.query = .ok result ∧ r = sqlResult result db.elapsed := by
  unfold executeSql
  cases db.beginError with
  | some e => simp
  | none =>
    cases db.timeoutError with
    | some e => simp
    | none =>
      cases db.query with
      | error e =>
        dsimp only
        split_ifs <;> simp
      | ok result => simp [eq_comm]

/-- The members of an object. -/
def members : JsonValue → List (String × JsonValue)
  | .object ms => ms
  | _ => []

theorem lookup_rowToJson {columns : List String} {row : List PgValue} {i : ℕ} {name : String}
    {v : PgValue} (hname : columns[i]? = some name) (hvalue : row[i]? = some v)
    (hlast : name ∉ columns.drop (i + 1)) :
    (members (rowToJson columns row)).lookup name = some v.toJson := by
  have hzip : (columns.zip (row.map PgValue.toJson))[i]? = some (name, v.toJson) := by
    rw [List.getElem?_zip_eq_some]
    exact ⟨hname, by rw [List.getElem?_map, hvalue]; rfl⟩
  obtain ⟨hi, hget⟩ := List.getElem?_eq_some_iff.mp hzip
  -- what stands behind the column has other names
  have hbehind : ((columns.zip (row.map PgValue.toJson)).drop (i + 1)).reverse.lookup name = none := by
    rw [List.lookup_eq_none_iff]
    intro e he
    rw [List.mem_reverse, List.zip_eq_zipWith, List.drop_zipWith, ← List.zip_eq_zipWith] at he
    have hmem := (List.of_mem_zip he).1
    rw [bne_iff_ne]
    exact fun heq => hlast (heq ▸ hmem)
  show (SortedMap.collect (columns.zip (row.map PgValue.toJson))).lookup name = _
  rw [SortedMap.lookup_collect, ← List.take_append_drop i (columns.zip (row.map PgValue.toJson)),
    List.drop_eq_getElem_cons hi, hget, List.reverse_append, List.reverse_cons, List.append_assoc,
    List.lookup_append, hbehind, Option.none_or]
  exact List.lookup_cons_self

theorem isSome_lookup_rowToJson {columns : List String} {row : List PgValue}
    (hwidth : row.length = columns.length) (name : String) :
    ((members (rowToJson columns row)).lookup name).isSome ↔ name ∈ columns := by
  show ((SortedMap.collect (columns.zip (row.map PgValue.toJson))).lookup name).isSome ↔ _
  have hfirst : (columns.zip (row.map PgValue.toJson)).map Prod.fst = columns :=
    List.map_fst_zip (by rw [List.length_map, hwidth])
  rw [SortedMap.lookup_collect, List.lookup_isSome_iff]
  constructor
  · rintro ⟨e, he, hname⟩
    rw [List.mem_reverse] at he
    rw [beq_iff_eq.mp hname, ← hfirst]
    exact List.mem_map_of_mem he
  · intro hname
    rw [← hfirst] at hname
    obtain ⟨e, he, heq⟩ := List.mem_map.mp hname
    exact ⟨e, List.mem_reverse.mpr he, beq_iff_eq.mpr heq.symm⟩

/-- Each row is one object, in the order of its names, with a member for each name of a column; of the
columns with one name the last one is kept.  A result without rows has no columns. -/
structure SqlResult.Shows (result : PgRows) (r : SqlResult) : Prop where
  rowCount : r.rowCount = result.rows.length
  length : r.rows.length = result.rows.length
  columns : r.columns = if result.rows.isEmpty then [] else result.names
  rows : ∀ (n : ℕ) (row : List PgValue), result.rows[n]? = some row →
    ∃ ms, r.rows[n]? = some (.object ms) ∧ SortedMap.Sorted ms ∧
      (∀ name, (ms.lookup name).isSome ↔ name ∈ result.names) ∧
      ∀ (i : ℕ) (name : String) (v : PgValue), result.names[i]? = some name →
        row[i]? = some v → name ∉ result.names.drop (i + 1) → ms.lookup name = some v.toJson

theorem shows_sqlResult (result : PgRows) (elapsed : UInt64) :
    (sqlResult result elapsed).Shows result := by
  cases hempty : result.rows.isEmpty with
  | true =>
    have hr : sqlResult result elapsed = ⟨[], [], 0, elapsed⟩ := if_pos hempty
    rw [hr]
    refine ⟨?_, ?_, ?_, ?_⟩
    · rw [List.isEmpty_iff.mp hempty]
      rfl
    · rw [List.isEmpty_iff.mp hempty]
      rfl
    · rw [hempty]
      rfl
    · intro n row hrow
      rw [List.isEmpty_iff.mp hempty] at hrow
      cases hrow
  | false =>
    have hr : sqlResult result elapsed = ⟨result.names, result.rows.map (rowToJson result.names),
        (result.rows.map (rowToJson result.names)).length, elapsed⟩ :=
      if_neg (by rw [hempty]; exact Bool.false_ne_true)
    rw [hr]
    refine ⟨List.length_map _, List.length_map _, by rw [hempty]; rfl, ?_⟩
    intro n row hrow
    have hwidth := result.width row (List.mem_of_getElem? hrow)
    refine ⟨SortedMap.collect (result.names.zip (row.map PgValue.toJson)), ?_,
      SortedMap.sorted_collect _, isSome_lookup_rowToJson hwidth, ?_⟩
    · show (result.rows.map (rowToJson result.names))[n]? = _
      rw [List.getElem?_map, hrow]
      rfl
    · intro i name v hname hvalue hlast
      exact lookup_rowToJson hname hvalue hlast

/-- A result that is returned shows the rows that the database has answered to the query. -/
theorem executeSql_rows {db : Replies} {sql : ValidatedSql} {timeoutMs : Option UInt64}
    {r : SqlResult} (h : (executeSql db sql timeoutMs).1 = .ok r) :
    db.beginError = none ∧ db.timeoutError = none ∧
      ∃ result, db.query = .ok result ∧ r.Shows result := by
  obtain ⟨hbegin, htimeout, result, hquery, hr⟩ := (executeSql_ok_iff db sql timeoutMs r).mp h
  rw [hr]
  exact ⟨hbegin, htimeout, result, hquery, shows_sqlResult result db.elapsed⟩

/-- Two columns of one name, the later one with `NULL`. -/
def twoColumns : PgRows where
  names := ["id", "id"]
  rows := [[.int4 (some 7), .text none]]
  width := by decide

theorem executeSql_rows_twoColumns :
    let db : Replies := ⟨none, none, .ok twoColumns, 1⟩
    let sql : ValidatedSql := ⟨"SELECT 7 AS id, NULL AS id".toList,
      "SELECT 7 AS id, NULL AS id LIMIT 1000".toList, []⟩
    let r : SqlResult := sqlResult twoColumns 1
    (executeSql db sql none).1 = .ok r ∧ db.beginError = none ∧ db.timeoutError = none ∧
      ∃ result, db.query = .ok result ∧ r.Shows result := by
  intro db sql r
  have h : (executeSql db sql none).1 = .ok r := rfl
  exact ⟨h, executeSql_rows h⟩

end Sql

end ForgeIndex
