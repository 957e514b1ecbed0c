import ForgeIndex.Config.CreateSql
import ForgeIndex.Config.Validation
import ForgeIndex.Db.Postgres
import ForgeIndex.Lib.Text

/-!
# The database manager

`forge-index-db/src/manager.rs`: the tables that the indexer creates when it starts, and the build
id that it keeps in `_forge_meta`; with the two calls of it in `ForgeIndexRunner::run`.
-/

namespace ForgeIndex

namespace DatabaseManager

/-- `sqlx::Error`, with what the manager reads of it. -/
inductive PgError where
  | rowNotFound
  /-- An error that Postgres reports, by its message. -/
  | database (message : String)
  /-- Any other, by its text. -/
  | other (text : String)
  deriving DecidableEq, Repr

def PgError.display : PgError → String
  | rowNotFound => "no rows returned by a query that expected to return at least one row"
  | database message => "error returned from database: " ++ message
  | other text => text

/-- A table: the types of its columns, those that may not be `NULL`, the column sets that are
unique, and the rows. -/
structure PgTable where
  columns : List (String × String)
  notNull : List String
  unique : List (List String)
  rows : Table String

/-- What a name of a Postgres schema stands for. -/
inductive Relation where
  | table (t : PgTable)
  | index

/-- The Postgres schemas, and the relations by schema and name. -/
structure PgState where
  schemas : List String
  relations : String × String → Option Relation

/-- What becomes of a statement: Postgres gets it and answers, it is not run, it is run and the
answer is lost, or the process is gone before it is sent. -/
inductive Reply where
  | answered
  | refused (e : PgError)
  | unanswered (e : PgError)
  | killed
  deriving DecidableEq

/-- The statements of `setup`. -/
inductive Statement where
  | createSchema
  | create (s : CreateStatement)
  | createMeta
  | upsertBuildId (buildId : String)

/-- `"_forge_meta"`. -/
def metaTable : String := "_forge_meta"

/-- The table that `CREATE TABLE` makes. -/
def newTable (t : TableDef) (isReorg : Bool) : PgTable where
  columns := t.columns.map (fun c => (c.name, c.colType.toSqlType)) ++
    if isReorg then [("_operation", "TEXT"), ("_block_number", "BIGINT")] else []
  notNull := ((t.columns.filter fun c => !c.nullable || (c.primaryKey && !isReorg)).map
    ColumnDef.name) ++ if isReorg then ["_operation", "_block_number"] else []
  unique := if isReorg then [] else (t.columns.filter fun c => c.primaryKey).map fun c => [c.name]
  rows := []

/-- `_forge_meta` as the manager creates it. -/
def newMeta : PgTable where
  columns := [("key", "TEXT"), ("value", "TEXT")]
  notNull := ["key", "value"]
  unique := [["key"]]
  rows := []

/-- The row that the insertion makes. -/
def metaRow (buildId : String) : Tuple String := fun c =>
  if c = "key" then some "build_id" else if c = "value" then some buildId else none

/-- The rows under `WHERE key = 'build_id'`. -/
def isBuildId (r : Tuple String) : Bool := decide (r "key" = some "build_id")

namespace PgTable

/-- The table takes the insertion of a key and a value with `ON CONFLICT (key)`. -/
def takesMeta (t : PgTable) : Bool :=
  decide (("key", "TEXT") ∈ t.columns) && decide (("value", "TEXT") ∈ t.columns) &&
    decide (["key"] ∈ t.unique) && t.notNull.all fun c => c = "key" || c = "value"

/-- `INSERT … ON CONFLICT (key) DO UPDATE SET value = $1`. -/
def upsert (t : PgTable) (buildId : String) : PgTable :=
  if t.rows.any isBuildId then
    { t with rows := t.rows.map fun r =>
        if isBuildId r then Function.update r "value" (some buildId) else r }
  else { t with rows := t.rows ++ [metaRow buildId] }

/-- `SELECT value … WHERE key = 'build_id'`, of which the first row is fetched. -/
def selectBuildId (t : PgTable) : Except PgError String :=
  match t.rows.find? isBuildId with
  | none => .error .rowNotFound
  | some r =>
    match r "value" with
    | none => .error (.other "error occurred while decoding column 0: unexpected null")
    | some value => .ok value

end PgTable

namespace PgState

/-- The message for a relation that is not there. -/
def noRelation (pgSchema name : String) : PgError :=
  .database ("relation \"" ++ pgSchema ++ "." ++ name ++ "\" does not exist")

/-- The relation of this name is this one. -/
def put (db : PgState) (pgSchema name : String) (r : Relation) : PgState :=
  { db with relations := Function.update db.relations (pgSchema, name) (some r) }

/-- `CREATE TABLE IF NOT EXISTS`. -/
def createTable (db : PgState) (pgSchema name : String) (t : PgTable) :
    Except PgError PgState :=
  if pgSchema ∉ db.schemas then
    .error (.database ("schema \"" ++ pgSchema ++ "\" does not exist"))
  else
    match db.relations (pgSchema, name) with
    | some _ => .ok db
    | none => .ok (db.put pgSchema name (.table t))

/-- What a statement does that Postgres runs. -/
def run (db : PgState) (pgSchema : String) : Statement → Except PgError PgState
  | .createSchema =>
    .ok (if pgSchema ∈ db.schemas then db else { db with schemas := db.schemas ++ [pgSchema] })
  | .create (.table t isReorg) =>
    db.createTable pgSchema (t.relationName isReorg) (newTable t isReorg)
  | .create (.index tableName i) =>
    match db.relations (pgSchema, i.name tableName), db.relations (pgSchema, tableName) with
    | some _, _ => .ok db
    | none, some (.table t) =>
      .ok ((db.put pgSchema (i.name tableName) .index).put pgSchema tableName
        (.table { t with unique := t.unique ++ if i.unique then [i.columns] else [] }))
    | none, _ => .error (noRelation pgSchema tableName)
  | .createMeta => db.createTable pgSchema metaTable newMeta
  | .upsertBuildId buildId =>
    match db.relations (pgSchema, metaTable) with
    | some (.table t) =>
      if t.takesMeta then .ok (db.put pgSchema metaTable (.table (t.upsert buildId)))
      else .error (.database ("\"" ++ metaTable ++ "\" does not take the row"))
    | _ => .error (noRelation pgSchema metaTable)

/-- What the selection of the build id gives. -/
def selectBuildId (db : PgState) (pgSchema : String) : Except PgError String :=
  match db.relations (pgSchema, metaTable) with
  | some (.table t) => t.selectBuildId
  | _ => .error (noRelation pgSchema metaTable)

end PgState

/-- `sqlx::query(&sql).execute(&self.pool)`. -/
def execute (pgSchema : String) (reply : Reply) (s : Statement) : Proc PgState PgError Unit :=
  fun db =>
    match reply with
    | .killed => (.stopped, db)
    | .refused e => (.err e, db)
    | .unanswered e => (.err e, ((db.run pgSchema s).toOption).getD db)
    | .answered =>
      match db.run pgSchema s with
      | .ok db' => (.ok (), db')
      | .error e => (.err e, db)

/-- `sqlx::query_as(&query).fetch_one(&self.pool)`. -/
def fetchBuildId (pgSchema : String) (reply : Reply) : Proc PgState PgError String := fun db =>
  match reply with
  | .killed => (.stopped, db)
  | .refused e => (.err e, db)
  | .unanswered e => (.err e, db)
  | .answered =>
    match db.selectBuildId pgSchema with
    | .ok value => (.ok value, db)
    | .error e => (.err e, db)

/-- `DbError`, as far as the manager raises it. -/
inductive Error where
  | poolCreation (message : String)
  | migration (message : String)
  | query (table : String) (source : PgError)
  deriving DecidableEq, Repr

def Error.display : Error → String
  | poolCreation message => "Pool creation failed: " ++ message
  | migration message => "Migration failed: " ++ message
  | query table source => "Query failed on table '" ++ table ++ "': " ++ source.display

inductive BuildIdStatus where
  | same
  | changed (old new : String)
  | notFound
  deriving DecidableEq, Repr

/-- `DatabaseManager::new`, as far as it can fail; `none` stands for a pool that is connected. -/
def new (refused : Option PgError) : DatabaseConfig → Except Error Unit
  | .postgres _ _ _ =>
    match refused with
    | none => .ok ()
    | some e => .error (.poolCreation e.display)
  | .pglite _ => .error (.poolCreation "PGlite is not yet supported")

variable (sha256 : Bytes → Bytes)

/-- A statement of `setup`; it gets the n-th reply of its run. -/
def migrate (pgSchema : String) (reply : ℕ → Reply) (n : ℕ) (message : String → String)
    (s : Statement) : Proc PgState Error Unit :=
  Proc.mapErr (fun e => .migration (message e.display)) (execute pgSchema (reply n) s)

def setup (reply : ℕ → Reply) (schema : Schema) (pgSchema : String) : Proc PgState Error Unit := do
  migrate pgSchema reply 0 id .createSchema
  let stmts := schema.createStatements
  Proc.forEach (fun p => migrate pgSchema reply p.2 (fun e => p.1.sql pgSchema ++ ": " ++ e)
    (.create p.1)) (stmts.zipIdx 1)
  migrate pgSchema reply (stmts.length + 1) id .createMeta
  migrate pgSchema reply (stmts.length + 2) id (.upsertBuildId (schema.buildId sha256))

/-- The errors that mean that no build id is stored. -/
def PgError.isMissing : PgError → Bool
  | rowNotFound => true
  | database message => Text.contains "does not exist".toList message.toList
  | other _ => false

def checkBuildId (reply : Reply) (schema : Schema) (pgSchema : String) :
    Proc PgState Error BuildIdStatus := do
  let newId := schema.buildId sha256
  match ← Proc.attempt (fetchBuildId pgSchema reply) with
  | .ok oldId => if oldId = newId then pure .same else pure (.changed oldId newId)
  | .error e => if e.isMissing then pure .notFound else Proc.fail (.query metaTable e)

section Check

variable {sha256}

theorem PgTable.selectBuildId_upsert (t : PgTable) (buildId : String) :
    (t.upsert buildId).selectBuildId = .ok buildId := by
  unfold upsert
  by_cases hany : t.rows.any isBuildId = true
  · rw [if_pos hany]
    -- the update leaves the key of every row
    have hkey (r : Tuple String) :
        isBuildId (if isBuildId r then Function.update r "value" (some buildId) else r) =
          isBuildId r := by
      by_cases hr : isBuildId r = true
      · rw [if_pos hr]
        unfold isBuildId
        rw [Function.update_of_ne (by decide)]
      · rw [if_neg hr]
    obtain ⟨r, hr⟩ := Option.isSome_iff_exists.mp (List.find?_isSome.mpr (List.any_eq_true.mp hany))
    have hfind : (t.rows.map fun r =>
        if isBuildId r then Function.update r "value" (some buildId) else r).find? isBuildId =
          some (Function.update r "value" (some buildId)) := by
      rw [List.find?_map]
      have hcomp : (isBuildId ∘ fun r => if isBuildId r then
          Function.update r "value" (some buildId) else r) = isBuildId := by
        funext r
        exact hkey r
      rw [hcomp, hr, Option.map_some, if_pos (List.find?_some hr)]
    unfold selectBuildId
    dsimp only
    rw [hfind]
    dsimp only
    rw [Function.update_self]
  · rw [if_neg hany]
    have hnone : t.rows.find? isBuildId = none := by
      apply List.find?_eq_none.mpr
      intro r hr hkey
      exact hany (List.any_eq_true.mpr ⟨r, hr, hkey⟩)
    unfold selectBuildId
    dsimp only
    rw [List.find?_append, hnone]
    rfl

theorem PgState.selectBuildId_run {db db' : PgState} {pgSchema buildId : String}
    (h : db.run pgSchema (.upsertBuildId buildId) = .ok db') :
    db'.selectBuildId pgSchema = .ok buildId := by
  unfold run at h
  dsimp only at h
  split at h
  · next t ht =>
    split at h
    · cases h
      unfold selectBuildId put
      dsimp only
      rw [Function.update_self]
      exact t.selectBuildId_upsert buildId
    · cases h
  · cases h

theorem execute_ok {pgSchema : String} {reply : Reply} {s : Statement} {db db' : PgState}
    (h : execute pgSchema reply s db = (.ok (), db')) : db.run pgSchema s = .ok db' := by
  unfold execute at h
  cases reply with
  | answered =>
    dsimp only at h
    cases hrun : db.run pgSchema s with
    | error e =>
      rw [hrun] at h
      cases h
    | ok db'' =>
      rw [hrun] at h
      cases h
      rfl
  | _ => cases h

theorem setup_stores {reply : ℕ → Reply} {schema : Schema} {pgSchema : String} {db db' : PgState}
    (h : setup sha256 reply schema pgSchema db = (.ok (), db')) :
    db'.selectBuildId pgSchema = .ok (schema.buildId sha256) := by
  unfold setup at h
  obtain ⟨_, db₁, -, h⟩ := Proc.bind_ok_iff.mp h
  obtain ⟨_, db₂, -, h⟩ := Proc.bind_ok_iff.mp h
  obtain ⟨_, db₃, -, h⟩ := Proc.bind_ok_iff.mp h
  -- the last statement is the insertion
  exact PgState.selectBuildId_run (execute_ok (Proc.mapErr_ok_iff.mp h))

theorem checkBuildId_answered {schema : Schema} {pgSchema old : String} {db : PgState}
    (h : db.selectBuildId pgSchema = .ok old) :
    checkBuildId sha256 .answered schema pgSchema db =
      (.ok (if old = schema.buildId sha256 then .same else .changed old (schema.buildId sha256)),
        db) := by
  have hfetch : fetchBuildId pgSchema .answered db = (.ok old, db) := by
    unfold fetchBuildId
    dsimp only
    rw [h]
  unfold checkBuildId
  rw [Proc.bind_of_ok (Proc.attempt_of_ok hfetch)]
  dsimp only
  split_ifs <;> rfl

/-- A check whose statement Postgres does not answer finds no build id, if anything. -/
theorem checkBuildId_not_answered {reply : Reply} (hreply : reply ≠ .answered) {schema : Schema}
    {pgSchema : String} {db db' : PgState} {status : BuildIdStatus}
    (h : checkBuildId sha256 reply schema pgSchema db = (.ok status, db')) : status = .notFound := by
  have herr (e : PgError) (hfetch : fetchBuildId pgSchema reply db = (.err e, db)) :
      status = .notFound := by
    unfold checkBuildId at h
    rw [Proc.bind_of_ok (Proc.attempt_of_err hfetch)] at h
    dsimp only at h
    split_ifs at h
    · cases h
      rfl
    · cases h
  cases reply with
  | answered => exact absurd rfl hreply
  | refused e => exact herr e rfl
  | unanswered e => exact herr e rfl
  | killed => cases h

end Check

end DatabaseManager

end ForgeIndex
