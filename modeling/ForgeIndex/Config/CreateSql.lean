import ForgeIndex.Config.Json
import ForgeIndex.Lib.Utf8

/-!
# The tables in Postgres

`forge-index-config/src/schema.rs`: the statements that create the tables of a schema, and the
build id of a schema.  The hash is a parameter.
-/

namespace ForgeIndex

def ColumnType.toSqlType : ColumnType → String
  | .text => "TEXT"
  | .boolean => "BOOLEAN"
  | .int => "INTEGER"
  | .bigInt => "NUMERIC"
  | .float => "DOUBLE PRECISION"
  | .hex => "TEXT"
  | .address => "TEXT"
  | .hash => "TEXT"
  | .json => "JSONB"
  | .bytes => "TEXT"
  | .timestamp => "BIGINT"

/-- A name as SQL; quotes inside it are not doubled. -/
def quoted (name : String) : String := "\"" ++ name ++ "\""

/-- A column of `CREATE TABLE`. -/
def ColumnDef.sql (isReorg : Bool) (c : ColumnDef) : String :=
  " ".intercalate ([quoted c.name, c.colType.toSqlType] ++
    (if c.nullable then [] else ["NOT NULL"]) ++
    (if c.primaryKey && !isReorg then ["PRIMARY KEY"] else []))

/-- The name of a table or of its shadow table. -/
def TableDef.relationName (isReorg : Bool) (t : TableDef) : String :=
  if isReorg then "_reorg_" ++ t.name else t.name

/-- The columns of a shadow table that the table does not have. -/
def shadowColumns : List String :=
  ["\"_operation\" TEXT NOT NULL", "\"_block_number\" BIGINT NOT NULL"]

/-- The foreign keys of a table. -/
def TableDef.foreignKeys (pgSchema : String) (t : TableDef) : List String :=
  t.columns.filterMap fun col => col.references.map fun r =>
    "FOREIGN KEY (" ++ quoted col.name ++ ") REFERENCES " ++ quoted pgSchema ++ "." ++
      quoted r.1 ++ "(" ++ quoted r.2 ++ ")"

/-- `table_create_sql`. -/
def TableDef.createSql (pgSchema : String) (t : TableDef) (isReorg : Bool) : String :=
  let colDefs := t.columns.map (ColumnDef.sql isReorg) ++
    if isReorg then shadowColumns else t.foreignKeys pgSchema
  "CREATE TABLE IF NOT EXISTS " ++ quoted pgSchema ++ "." ++ quoted (t.relationName isReorg) ++
    " (" ++ ", ".intercalate colDefs ++ ");"

/-- The name of an index of a table. -/
def IndexDef.name (tableName : String) (i : IndexDef) : String :=
  "idx_" ++ tableName ++ "_" ++ "_".intercalate i.columns

/-- `index_create_sql`. -/
def IndexDef.createSql (pgSchema tableName : String) (i : IndexDef) : String :=
  "CREATE " ++ (if i.unique then "UNIQUE " else "") ++ "INDEX IF NOT EXISTS " ++
    quoted (i.name tableName) ++ " ON " ++ quoted pgSchema ++ "." ++ quoted tableName ++ " (" ++
    ", ".intercalate (i.columns.map quoted) ++ ");"

/-- The statements of `to_create_sql`. -/
inductive CreateStatement where
  | table (t : TableDef) (isReorg : Bool)
  | index (tableName : String) (i : IndexDef)

def CreateStatement.sql (pgSchema : String) : CreateStatement → String
  | table t isReorg => t.createSql pgSchema isReorg
  | index tableName i => i.createSql pgSchema tableName

namespace Schema

/-- A table, its indexes, its shadow table. -/
def createStatements (s : Schema) : List CreateStatement :=
  s.tables.flatMap fun t =>
    .table t false :: t.indexes.map (.index t.name) ++ [.table t true]

def toCreateSql (s : Schema) (pgSchema : String) : List String :=
  s.createStatements.map (CreateStatement.sql pgSchema)

def buildId (sha256 : Bytes → Bytes) (s : Schema) : String :=
  String.ofList (Hex.encode (sha256 (Utf8.encode (s.toJson Json.inOrder).toText)))

end Schema

-- the statements of one table
example : (Schema.mk [⟨"t", [⟨"id", .text, false, true, none⟩], [⟨["id"], true⟩]⟩]).toCreateSql
    "public" =
      ["CREATE TABLE IF NOT EXISTS \"public\".\"t\" (\"id\" TEXT NOT NULL PRIMARY KEY);",
        "CREATE UNIQUE INDEX IF NOT EXISTS \"idx_t_id\" ON \"public\".\"t\" (\"id\");",
        "CREATE TABLE IF NOT EXISTS \"public\".\"_reorg_t\" (\"id\" TEXT NOT NULL, " ++
          "\"_operation\" TEXT NOT NULL, \"_block_number\" BIGINT NOT NULL);"] := by
  decide

end ForgeIndex
