import ForgeIndex.Lib.Text

/-!
# The SQL validator

`forge-index-api/src/sql/parser.rs`.  Byte positions of the upper-cased copy are used on the query
itself, as in the source; a position that is not the start of a character ends the call.
-/

namespace ForgeIndex

open Text

/-- The case tables of Unicode: `to_uppercase` maps character by character, `to_lowercase` may look
at the whole text. -/
structure CaseTables where
  upper : Char → List Char
  lower : List Char → List Char
  upper_ascii : ∀ c : Char, c.toNat < 128 → upper c = [c.toUpper]

/-- The tables of a text without other letters than those of ASCII. -/
def CaseTables.ascii : CaseTables where
  upper c := [c.toUpper]
  lower s := s.map Char.toLower
  upper_ascii _ _ := rfl

def CaseTables.toUppercase (t : CaseTables) (s : List Char) : List Char := s.flatMap t.upper

/-- The errors of the validator. -/
inductive SqlError where
  | invalidStatement (message : String)
  | forbiddenKeyword (keyword : String)
  | tooLong (len max : ℕ)
  deriving DecidableEq, Repr

/-- Why `validate_sql` does not return `Ok`. -/
inductive SqlFailure where
  | rejected (e : SqlError)
  /-- A string is sliced out of range or off a character boundary. -/
  | panic
  deriving DecidableEq, Repr

structure ValidatedSql where
  original : List Char
  sanitised : List Char
  tableNames : List (List Char)
  deriving DecidableEq, Repr

namespace Sql

def maxQueryLength : ℕ := 10000

def maxLimit : ℕ := 1000

def bannedKeywords : List String :=
  ["INSERT", "UPDATE", "DELETE", "DROP", "CREATE", "ALTER", "TRUNCATE", "GRANT", "REVOKE", "COPY",
    "EXECUTE"]

def bannedSchemas : List String := ["pg_catalog", "information_schema"]

/-- A byte that continues a word for the scans: an ASCII letter or digit, or an underscore.  The
bytes of any other character are no such bytes. -/
def wordByte (c : Char) : Bool := c.isAlphanum || c == '_'

/-- `before_ok && after_ok` for an occurrence of the keyword at an index. -/
def standsAlone (upperSql keyword : List Char) (i : ℕ) : Bool :=
  (i == 0 || (upperSql[i - 1]?).all fun c => !wordByte c) &&
    (upperSql[i + keyword.length]?).all fun c => !wordByte c

/-- The loop of `contains_keyword` and `find_keyword_pos` from a start index. -/
def scanKeyword (upperSql keyword : List Char) : ℕ → ℕ → Option ℕ
  | 0, _ => none
  | fuel + 1, start =>
    match find keyword (upperSql.drop start) with
    | none => none
    | some pos =>
      if standsAlone upperSql keyword (start + pos) then some (start + pos)
      else scanKeyword upperSql keyword fuel (start + pos + keyword.length)

/-- The index of the first occurrence that the loop accepts. -/
def keywordIndex (upperSql keyword : List Char) : Option ℕ :=
  scanKeyword upperSql keyword (upperSql.length + 1) 0

def containsKeyword (upperSql keyword : List Char) : Bool := (keywordIndex upperSql keyword).isSome

/-- `find_keyword_pos`, a byte position. -/
def findKeywordPos (upperSql keyword : List Char) : Option ℕ :=
  (keywordIndex upperSql keyword).map fun i => byteLength (upperSql.take i)

section Parser

variable (tables : CaseTables)

/-- The table name of the token after `FROM` or `JOIN`. -/
def tableNameOf (token : List Char) : Option (List Char) :=
  let raw := trimMatches (· == '"') (trimMatches (fun c => c == '(' || c == ')' || c == ',') token)
  if !raw.isEmpty && raw != ['('] &&
      !("SELECT".toList.isPrefixOf (tables.toUppercase raw)) && raw.head? != some '(' then
    match rsplitOnce '.' raw with
    | some (_, table) => some table
    | none => some raw
  else none

/-- The token asks for a table name after it. -/
def introducesTable (token : List Char) : Bool :=
  tables.toUppercase token == "FROM".toList ||
    "JOIN".toList.isSuffixOf (tables.toUppercase token)

/-- The loop over the tokens of `extract_table_names`. -/
def collectTables : List (List Char) → List (List Char) → List (List Char)
  | names, token :: next :: tokens =>
    let names := if introducesTable tables token then
      match tableNameOf tables next with
      | some name => if name ∈ names then names else names ++ [name]
      | none => names
    else names
    collectTables names (next :: tokens)
  | names, _ => names

def extractTableNames (sql : List Char) : List (List Char) :=
  collectTables tables [] (splitWhitespace sql)

/-- The keywords of `add_schema_prefix`. -/
def prefixKeywords : List String := ["FROM", "JOIN", "from", "join", "From", "Join"]

/-- The body of the loop of `add_schema_prefix`. -/
def prefixAfter (table pgSchema : List Char) (result : List Char) (kw : String) : List Char :=
  let qualified := pgSchema ++ ".\"".toList ++ table ++ "\"".toList
  let pattern := kw.toList ++ ' ' :: table
  let alreadyQualified := kw.toList ++ ' ' :: pgSchema ++ ['.']
  let alreadyQuoted := kw.toList ++ " \"".toList ++ table
  let result := if contains pattern result && !contains alreadyQualified result then
    replaceAll pattern (kw.toList ++ ' ' :: qualified) result
  else result
  if contains alreadyQuoted result && !contains alreadyQualified result then
    replaceAll (alreadyQuoted ++ ['"']) (kw.toList ++ ' ' :: qualified) result
  else result

def addSchemaPrefix (pgSchema sql table : List Char) : List Char :=
  prefixKeywords.foldl (prefixAfter table pgSchema) sql

/-- `parse::<u64>` of a text that starts with no sign. -/
def parseU64 (s : List Char) : Option ℕ :=
  if s.isEmpty || !s.all Char.isDigit then none
  else
    let n := s.foldl (fun n c => n * 10 + (c.toNat - '0'.toNat)) 0
    if n < 2 ^ 64 then some n else none

/-- The number that the text after `LIMIT` starts with, and how long its token is. -/
def limitArgument (afterLimit : List Char) : Option (ℕ × ℕ) :=
  (splitWhitespace afterLimit).head?.bind fun numStr =>
    (parseU64 (trimMatches (fun c => !c.isDigit) numStr)).map fun n => (n, numStr.length)

/-- `enforce_limit`; nothing when a slice panics.  `num_start` and `num_end` are the ends of the
first token after the white space that follows `LIMIT`. -/
def enforceLimit (sql : List Char) : Option (List Char) :=
  match findKeywordPos (tables.toUppercase sql) "LIMIT".toList with
  | none => some (sql ++ " LIMIT 1000".toList)
  | some limitPos =>
    (splitAtByte (limitPos + 5) sql).map fun parts =>
      match limitArgument (trimStart parts.2) with
      | some (n, numLength) =>
        if maxLimit < n then
          parts.1 ++ parts.2.takeWhile isWhitespace ++ "1000".toList ++
            (trimStart parts.2).drop numLength
        else sql
      | none => sql

/-- The text after step 9: every table name that was found with its schema. -/
def qualifyTables (pgSchema trimmed : List Char) : List Char :=
  (extractTableNames tables trimmed).foldl (addSchemaPrefix pgSchema) trimmed

/-- The query without its white space and its final semicolons. -/
def withoutEnd (sql : List Char) : List Char := trim (trimEndMatches (· == ';') sql)

/-- Steps 1 to 7. -/
def check (sql : List Char) : Except SqlError Unit :=
  if maxQueryLength < byteLength sql then .error (.tooLong (byteLength sql) maxQueryLength)
  else if sql.isEmpty then .error (.invalidStatement "Empty query")
  else if tables.toUppercase ((splitWhitespace sql).headD []) ≠ "SELECT".toList then
    .error (.invalidStatement "Only SELECT statements are allowed")
  else if ';' ∈ withoutEnd sql then
    .error (.invalidStatement "Multiple statements are not allowed")
  else if contains "$$".toList sql || contains "$tag$".toList sql then
    .error (.invalidStatement "Dollar-sign quoting is not allowed")
  else
    match bannedKeywords.find? fun k => containsKeyword (tables.toUppercase sql) k.toList with
    | some keyword => .error (.forbiddenKeyword keyword)
    | none =>
      match bannedSchemas.find? fun s => contains s.toList (tables.lower sql) with
      | some schema => .error (.forbiddenKeyword ("Access to " ++ schema ++ " is not allowed"))
      | none => .ok ()

def validateSql (sql pgSchema : List Char) : Except SqlFailure ValidatedSql :=
  let sql := trim sql
  match check tables sql with
  | .error e => .error (.rejected e)
  | .ok () =>
    match enforceLimit tables (qualifyTables tables pgSchema (withoutEnd sql)) with
    | none => .error .panic
    | some sanitised => .ok
      { original := sql
        sanitised := sanitised
        tableNames := extractTableNames tables (withoutEnd sql) }

end Parser

end Sql

end ForgeIndex
