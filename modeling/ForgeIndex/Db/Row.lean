import ForgeIndex.Lib.Hex
import ForgeIndex.Lib.IndexMap

/-!
# Rows of the write buffer

`forge-index-db/src/row.rs`.  A float and a JSON value are kept as the text their `Display`
gives, which is all that the SQL rendering reads of them.
-/

namespace ForgeIndex

inductive ColumnValue where
  | text (s : String)
  | boolean (b : Bool)
  | int (i : Int32)
  | bigInt (i : Int64)
  | float (display : String)
  | bytes (b : List UInt8)
  | json (display : String)
  | null
  | bigNumeric (s : String)
  deriving DecidableEq

/-- `Row`: the columns in order and the operation marker. -/
structure Row where
  columns : IndexMap String ColumnValue
  operation : Option String

namespace Row

def new : Row := ⟨IndexMap.empty, none⟩

def insert (r : Row) (col : String) (v : ColumnValue) : Row :=
  { r with columns := r.columns.insert col v }

def get (r : Row) (col : String) : Option ColumnValue := r.columns.get col

/-- `s.replace('\'', "''")`. -/
def doubleQuotes (s : String) : String :=
  String.ofList (s.toList.flatMap fun c => if c = '\'' then ['\'', '\''] else [c])

def toSqlLiteral : ColumnValue → String
  | .text s => "'" ++ doubleQuotes s ++ "'"
  | .boolean b => if b then "true" else "false"
  | .int i => toString i
  | .bigInt i => toString i
  | .float display => display
  | .bytes b => "'\\x" ++ String.ofList (Hex.encode b) ++ "'"
  | .json display => "'" ++ doubleQuotes display ++ "'"
  | .null => "NULL"
  | .bigNumeric s => s

/-- The literal that a statement shows for a column: `NULL` where the row has none. -/
def literal (r : Row) (col : String) : String := ((r.get col).map toSqlLiteral).getD "NULL"

/-- The branch of `flush_table` that a row takes. -/
inductive Kind where
  | insert | update | delete
  deriving DecidableEq, Repr

/-- `match row.operation.as_deref()`: anything but the two marks is an insert. -/
def kind (r : Row) : Kind :=
  if r.operation = some "UPDATE" then .update
  else if r.operation = some "DELETE" then .delete
  else .insert

end Row

end ForgeIndex
