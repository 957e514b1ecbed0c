import ForgeIndex.Api.Graphql.Filters
import ForgeIndex.Lib.Keyset
import Mathlib.Data.Prod.Lex

/-!
# A list query

`resolve_list` of `forge-index-api/src/graphql/resolver.rs` over a connection pool, and a database
that answers its queries.
-/

namespace ForgeIndex

open Text SqlLexer

/-- The values of the enumeration `OrderDirection` of the GraphQL schema. -/
inductive OrderDirection where
  | ASC
  | DESC
  deriving DecidableEq, Repr

/-- `SELECT COUNT(*)` over the rows of a table that meet a clause. -/
structure CountQuery where
  pgSchema : String
  table : String
  whereClause : Option (List Char)

/-- `SELECT … AS doc`: the documents of the rows that meet the clause, in order, up to the limit. -/
structure DataQuery where
  pgSchema : String
  table : String
  columns : List String
  whereClause : Option (List Char)
  orderCol : String
  pkCol : String
  dir : OrderDirection
  fetchLimit : ℤ

/-- The `where_clause` of both queries. -/
def whereText : Option (List Char) → List Char
  | none => []
  | some clause => " WHERE ".toList ++ clause

/-- `count_sql`. -/
def CountQuery.sql (q : CountQuery) : List Char :=
  "SELECT COUNT(*) FROM ".toList ++ Filters.quoteName q.pgSchema ++
    '.' :: (Filters.quoteName q.table ++ whereText q.whereClause)

def OrderDirection.text : OrderDirection → List Char
  | ASC => "ASC".toList
  | DESC => "DESC".toList

/-- `data_sql`. -/
def DataQuery.sql (q : DataQuery) : List Char :=
  "SELECT row_to_json((SELECT r FROM (SELECT ".toList ++
    ", ".toList.intercalate (q.columns.map Filters.quoteName) ++ ") AS r)) AS doc FROM ".toList ++
    Filters.quoteName q.pgSchema ++ '.' :: (Filters.quoteName q.table ++ whereText q.whereClause) ++
    " ORDER BY ".toList ++ Filters.quoteName q.orderCol ++ ' ' :: q.dir.text ++ ", ".toList ++
    Filters.quoteName q.pkCol ++ ' ' :: q.dir.text ++ " LIMIT ".toList ++
    (toString q.fetchLimit).toList

/-- `PgPool`: the queries and their answers, or the text of an error. -/
structure Pool where
  fetchOne : CountQuery → Except String ℤ
  fetchAll : DataQuery → Except String (List Json)

/-- `serde_json::to_string` and `from_str` on cursors. -/
structure Serde where
  toStr : CursorData → Option (List Char)
  fromStr : List Char → Option CursorData

/-- What a list query is asked for, apart from the cursors. -/
structure ListArgs where
  pgSchema : String
  table : String
  pkCol : String
  columns : List String
  filter : Option Json
  orderBy : Option String
  orderDirection : Option OrderDirection
  limit : Option ℤ

namespace ListArgs

def orderCol (args : ListArgs) : String := args.orderBy.getD args.pkCol

def dir (args : ListArgs) : OrderDirection := args.orderDirection.getD .ASC

/-- `limit.unwrap_or(100).min(1000)`. -/
def effectiveLimit (args : ListArgs) : ℤ := min (args.limit.getD 100) 1000

end ListArgs

structure PageInfo where
  hasNextPage : Bool
  hasPreviousPage : Bool
  startCursor : Option (List Char)
  endCursor : Option (List Char)

structure ListResult where
  items : List Json
  pageInfo : PageInfo
  totalCount : ℤ

namespace Resolver

/-- What the filter adds to `where_parts`. -/
def filterParts (filter : Option Json) : List (List Char) :=
  match filter with
  | none => []
  | some f =>
    let filterSql := (Filters.filtersToSql f).1
    if filterSql.isEmpty then [] else [filterSql]

/-- The text behind ` WHERE `, if there is a condition. -/
def whereClause (whereParts : List (List Char)) : Option (List Char) :=
  if whereParts.isEmpty then none else some (" AND ".toList.intercalate whereParts)

/-- The cursor of an item; an item without a key that is a string has none. -/
def itemCursor (serde : Serde) (pkCol orderCol : String) (item : Json) : Option (List Char) := do
  let pk ← (← item.get pkCol).asStr
  let orderVal := (item.get orderCol).getD .null
  some (Pagination.encodeCursor serde.toStr pk.toList orderCol.toList orderVal)

/-- `as usize` of an `i64`. -/
def asUsize (n : ℤ) : ℕ := (n % 2 ^ 64).toNat

def resolveList (pool : Pool) (serde : Serde) (args : ListArgs) (after before : Option (List Char)) :
    Except String ListResult := do
  let cursorPart := fun op => cursorParts serde.fromStr op args.orderCol.toList args.pkCol.toList
  let clause := whereClause (filterParts args.filter ++ cursorPart '>' after ++ cursorPart '<' before)
  let totalCount ← pool.fetchOne ⟨args.pgSchema, args.table, clause⟩
  let rows ← pool.fetchAll ⟨args.pgSchema, args.table, args.columns, clause, args.orderCol,
    args.pkCol, args.dir, args.effectiveLimit + 1⟩
  let items := rows.take (asUsize args.effectiveLimit)
  return {
    items := items
    pageInfo := {
      hasNextPage := decide (args.effectiveLimit < rows.length)
      hasPreviousPage := after.isSome
      startCursor := items.head?.bind (itemCursor serde args.pkCol args.orderCol)
      endCursor := items.getLast?.bind (itemCursor serde args.pkCol args.orderCol) }
    totalCount := totalCount }

end Resolver

/-- A row: the value of each column as `row_to_json` shows it. -/
abbrev DbRow := String → Json

/-- PostgreSQL takes the data query.  A name in `ORDER BY` is that of a column of the result if there
is one, so `"doc"` stands for the documents, which have no order; and `r` in the subquery is a column
of this name ahead of the row, which `row_to_json` does not take. -/
def DataQuery.Accepted (q : DataQuery) : Prop :=
  NulFree q.sql ∧ q.orderCol ≠ "doc" ∧ q.pkCol ≠ "doc" ∧ "r" ∉ q.columns

instance (q : DataQuery) : Decidable q.Accepted :=
  inferInstanceAs (Decidable (_ ∧ _ ∧ _ ∧ _))

/-- Tables that do not change.  `rank` is the order of a column: both the comparison of rows and
`ORDER BY` go by it.  `atom` is the truth of one condition of a filter; the truth of an expression
that is no conjunction of conditions is left open. -/
structure Database (K : Type) where
  relation : String → String → List DbRow
  rank : String → Json → K
  atom : List Token → DbRow → Bool
  other : List Token → DbRow → Bool
  refused : String
  negativeLimit : String

/-- A comparison of two columns with two constants. -/
structure RowComparison where
  op : Char
  left : String
  right : String
  leftVal : Json
  rightVal : Json

namespace RowComparison

/-- The value of a constant that is not null. -/
def constantValue : List Token → Option Json
  | [.string s] => some (.string (String.ofList s))
  | [.number text] => some (.number (String.ofList text))
  | [.symbol c, .number text] =>
    if c = '-' then some (.number (String.ofList ('-' :: text))) else none
  | [.word w] =>
    if w = "true".toList then some (.bool true)
    else if w = "false".toList then some (.bool false)
    else none
  | _ => none

theorem constantValue_numberTokens (text : String) :
    constantValue (Resolver.numberTokens text.toList) = some (.number text) := by
  by_cases hsign : text.toList.head? = some '-'
  · obtain ⟨tail, htail⟩ := List.head?_eq_some_iff.mp hsign
    rw [htail]
    show some (Json.number (String.ofList ('-' :: tail))) = _
    rw [← htail, String.ofList_toList]
  · rw [Resolver.numberTokens_of_head hsign]
    show some (Json.number (String.ofList text.toList)) = _
    rw [String.ofList_toList]

theorem constantValue_string (s : String) :
    constantValue [.string s.toList] = some (.string s) := by
  show some (Json.string (String.ofList s.toList)) = _
  rw [String.ofList_toList]

theorem constantValue_bool (b : Bool) :
    constantValue [.word (if b then "true" else "false").toList] = some (.bool b) := by
  cases b <;> rfl

/-- The comparison that the tokens write, if they do: the second constant is a string. -/
def ofTokens : List Token → Option RowComparison
  | p₁ :: .quoted left :: c₁ :: .quoted right :: p₂ :: .symbol op :: p₃ :: constants =>
    match constants.reverse with
    | p₄ :: .string key :: c₂ :: value =>
      if [p₁, c₁, p₂, p₃, c₂, p₄] = ['(', ',', ')', '(', ',', ')'].map Token.symbol ∧
          (op = '>' ∨ op = '<') then
        (constantValue value.reverse).map fun v =>
          ⟨op, String.ofList left, String.ofList right, v, .string (String.ofList key)⟩
      else none
    | _ => none
  | _ => none

end RowComparison

namespace Database

variable {K : Type} [LinearOrder K]

/-- The place of a row in the order of two columns. -/
def place (db : Database K) (left right : String) (row : DbRow) : K ×ₗ K :=
  toLex (db.rank left (row left), db.rank right (row right))

/-- The truth of one condition. -/
def truth (db : Database K) (row : DbRow) (ts : List Token) : Bool :=
  match RowComparison.ofTokens ts with
  | some c =>
    let bound : K ×ₗ K := toLex (db.rank c.left c.leftVal, db.rank c.right c.rightVal)
    if c.op = '>' then decide (bound < db.place c.left c.right row)
    else decide (db.place c.left c.right row < bound)
  | none => db.atom ts row

/-- The row meets the clause. -/
def satisfies (db : Database K) (clause : Option (List Char)) (row : DbRow) : Bool :=
  match clause with
  | none => true
  | some text => holds (db.truth row) (fun ts => db.other ts row) (lex text)

/-- `row_to_json` of the columns. -/
def document (columns : List String) (row : DbRow) : Json :=
  .object (columns.map fun c => .mk c (row c))

/-- `ORDER BY` of the two columns, both in the same direction. -/
def sorted (db : Database K) (dir : OrderDirection) (orderCol pkCol : String)
    (rows : List DbRow) : List DbRow :=
  match dir with
  | .ASC => Keyset.ordered (db.place orderCol pkCol) rows
  | .DESC => Keyset.ordered (OrderDual.toDual ∘ db.place orderCol pkCol) rows

/-- The rows that a query finds, in order and before the limit. -/
def found (db : Database K) (q : DataQuery) : List DbRow :=
  db.sorted q.dir q.orderCol q.pkCol ((db.relation q.pgSchema q.table).filter
    (db.satisfies q.whereClause))

/-- The database behind a pool. -/
def pool (db : Database K) : Pool where
  fetchOne q :=
    if NulFree q.sql then
      .ok ((db.relation q.pgSchema q.table).filter (db.satisfies q.whereClause)).length
    else .error db.refused
  fetchAll q :=
    if ¬q.Accepted then .error db.refused
    else if q.fetchLimit < 0 then .error db.negativeLimit
    else .ok (((db.found q).take q.fetchLimit.toNat).map (document q.columns))

section Answers

variable {db : Database K}

theorem fetchOne_eq {q : CountQuery} (h : NulFree q.sql) :
    db.pool.fetchOne q =
      .ok ((db.relation q.pgSchema q.table).filter (db.satisfies q.whereClause)).length := by
  unfold pool
  dsimp only
  rw [if_pos h]

theorem of_fetchOne {q : CountQuery} {n : ℤ} (h : db.pool.fetchOne q = .ok n) :
    n = ((db.relation q.pgSchema q.table).filter (db.satisfies q.whereClause)).length := by
  unfold pool at h
  dsimp only at h
  split_ifs at h
  exact (Except.ok.inj h).symm

theorem fetchAll_eq {q : DataQuery} (h : q.Accepted) (hlimit : 0 ≤ q.fetchLimit) :
    db.pool.fetchAll q = .ok (((db.found q).take q.fetchLimit.toNat).map (document q.columns)) := by
  unfold pool
  dsimp only
  rw [if_neg (not_not_intro h), if_neg (by omega)]

theorem fetchAll_refused {q : DataQuery} (h : ¬q.Accepted) :
    db.pool.fetchAll q = .error db.refused := by
  unfold pool
  dsimp only
  rw [if_pos h]

end Answers

end Database

end ForgeIndex
