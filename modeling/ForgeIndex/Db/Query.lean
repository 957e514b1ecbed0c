import ForgeIndex.Db.Literal
import ForgeIndex.Lib.SqlSelect

/-!
# Queries of indexing handlers

`forge-index-db/src/query.rs`: the builder behind `DbContext::find_one` and `find_many`.  Names,
operators and values are spliced into the text of a `SELECT`.
-/

namespace ForgeIndex

open SqlLexer

inductive Dir where
  | asc | desc
  deriving DecidableEq

def Dir.text : Dir → String
  | asc => "ASC"
  | desc => "DESC"

structure QueryBuilder where
  pgSchema : String
  table : String
  conditions : List String
  orderBy : List (String × Dir)
  limit : Option Int64
  offset : Option Int64
  deriving DecidableEq

/-- The methods that a handler chains. -/
inductive QueryCall where
  | where_ (col op : String) (val : ColumnValue)
  | orderBy (col : String) (dir : Dir)
  | limit (n : Int64)
  | offset (n : Int64)

/-- What a query ends in. -/
inductive QueryError (E : Type) where
  | query (table : String) (source : E)
  | serialization (message : String)
  deriving DecidableEq

namespace QueryBuilder

/-- `DbContext::find_one`, `DbContext::find_many`. -/
def new (pgSchema table : String) : QueryBuilder :=
  { pgSchema, table, conditions := [], orderBy := [], limit := none, offset := none }

def call (q : QueryBuilder) : QueryCall → QueryBuilder
  | .where_ col op val =>
    { q with conditions :=
        q.conditions ++ ["\"" ++ col ++ "\" " ++ op ++ " " ++ Row.toSqlLiteral val] }
  | .orderBy col dir => { q with orderBy := q.orderBy ++ [(col, dir)] }
  | .limit n => { q with limit := some n }
  | .offset n => { q with offset := some n }

def buildSql (q : QueryBuilder) : String :=
  let sql := "SELECT row_to_json(t.*) as doc FROM \"" ++ q.pgSchema ++ "\".\"" ++ q.table ++ "\" t"
  let sql := if q.conditions.isEmpty then sql
    else sql ++ " WHERE " ++ " AND ".intercalate q.conditions
  let sql := if q.orderBy.isEmpty then sql
    else
      let parts := q.orderBy.map fun k => "\"" ++ k.1 ++ "\" " ++ k.2.text
      sql ++ " ORDER BY " ++ ", ".intercalate parts
  let sql := match q.limit with
    | none => sql
    | some limit => sql ++ " LIMIT " ++ toString limit
  match q.offset with
  | none => sql
  | some offset => sql ++ " OFFSET " ++ toString offset

variable {E D T : Type} (q : QueryBuilder) (fetch : String → Except E (List D))
  (fromValue : D → Except String T)

/-- `serde_json::from_value`, with its error wrapped. -/
def decode (json : D) : Except (QueryError E) T := (fromValue json).mapError .serialization

def first : Except (QueryError E) (Option T) :=
  match fetch { q with limit := some 1 }.buildSql with
  | .error source => .error (.query q.table source)
  | .ok [] => .ok none
  | .ok (json :: _) => (decode fromValue json).map some

def all : Except (QueryError E) (List T) :=
  match fetch q.buildSql with
  | .error source => .error (.query q.table source)
  | .ok rows => rows.mapM (decode fromValue)

end QueryBuilder

/-- `row_to_json(t.*) as doc`, for a table that is called `t`. -/
def docTokens (label : List Char) : List Token :=
  [word "row_to_json", .symbol '(', .word label, .symbol '.', .symbol '*', .symbol ')', word "as",
    word "doc"]

/-- A database: what it answers to the query that a text is read as, and to a text that is read as
none.  Other queries than those for whole rows are left out. -/
structure Catalog (E D : Type) where
  answer : Select → Except E (List D)
  notRead : E

def Catalog.fetch {E D : Type} (db : Catalog E D) (sql : String) : Except E (List D) :=
  if NulFree sql.toList then
    match Select.read (lex sql.toList) with
    | none => .error db.notRead
    | some s => if s.output = docTokens s.label then db.answer s else .error db.notRead
  else .error db.notRead

namespace ColumnValue

/-- A number that is copied from its text is a decimal one; `NaN` and the infinities are none.  No
string has U+0000. -/
def IsPlain : ColumnValue → Prop
  | .bigNumeric s | .float s => ∃ n : Decimal, n.text = s.toList
  | .text s | .json s => NulFree s.toList
  | _ => True

/-- The constant that a query compares with. -/
def StandsFor (v : ColumnValue) (c : Constant) : Prop :=
  v.DenotedBy c ∨ ∃ display n, v = .float display ∧ c = .number n ∧ n.text = display.toList

theorem isConstant_toSqlLiteral {v : ColumnValue} (h : v.IsPlain) :
    ∃ c : Constant, IsConstant (Row.toSqlLiteral v).toList c ∧ v.StandsFor c := by
  by_cases hfloat : ∃ display, v = .float display
  · obtain ⟨display, hv⟩ := hfloat
    subst hv
    obtain ⟨n, hn⟩ := h
    exact ⟨.number n, isConstant_iff.mpr ⟨hn.symm, nofun⟩, .inr ⟨display, n, rfl, rfl, hn⟩⟩
  · have hplain : (∀ s, v = .bigNumeric s → ∃ n : Decimal, n.text = s.toList) ∧
        ∀ s, v = .text s ∨ v = .json s → NulFree s.toList := by
      constructor
      · intro s hs
        subst hs
        exact h
      · intro s hs
        rcases hs with hs | hs
        all_goals
          subst hs
          exact h
    obtain ⟨c, hconstant, hdenotes⟩ := Row.isConstant_of_plain
      (fun display hv => hfloat ⟨display, hv⟩) hplain.1 hplain.2
    exact ⟨c, hconstant, .inl hdenotes⟩

end ColumnValue

/-- A name that may stand between double quotes as it is. -/
def IsName (name : String) : Prop := '"' ∉ name.toList ∧ NulFree name.toList

instance (name : String) : Decidable (IsName name) := inferInstanceAs (Decidable (_ ∧ _))

namespace QueryCall

/-- Symbols such as `<=`, and the words `ILIKE`, `NOT` and `IN`. -/
def IsOperator (op : String) : Prop :=
  NulFree op.toList ∧ Lexes op.toList (lex op.toList) ∧
    ∀ t ∈ lex op.toList, standsInCondition t = true ∧ t ≠ .symbol '(' ∧ t ≠ .symbol ')'

/-- Names without quotes, an operator, and a value that is shown as a constant. -/
def IsPlain : QueryCall → Prop
  | .where_ col op val => IsName col ∧ IsOperator op ∧ val.IsPlain
  | .orderBy col _ => IsName col
  | _ => True

/-- The condition compares the column with a constant that stands for the value. -/
def Compares (w : String × String × ColumnValue) (condition : List Token) : Prop :=
  ∃ c : Constant, w.2.2.StandsFor c ∧
    condition = .quoted w.1.toList :: (lex w.2.1.toList ++ c.tokens)

def comparison? : QueryCall → Option (String × String × ColumnValue)
  | .where_ col op val => some (col, op, val)
  | _ => none

def key? : QueryCall → Option (List Char × Bool)
  | .orderBy col dir => some (col.toList, dir == .desc)
  | _ => none

def limit? : QueryCall → Option ℤ
  | .limit n => some n.toInt
  | _ => none

def offset? : QueryCall → Option ℤ
  | .offset n => some n.toInt
  | _ => none

end QueryCall

/-- The query for whole rows with a comparison for each call of `where_`, the columns of all calls of
`order_by`, and the counts of the last `limit` and `offset`. -/
structure QueryBuilder.Asks (pgSchema table : String) (calls : List QueryCall) (s : Select) :
    Prop where
  label : s.label = ['t']
  output : s.output = docTokens s.label
  schema : s.schema = pgSchema.toList
  table : s.table = table.toList
  conditions :
    List.Forall₂ QueryCall.Compares (calls.filterMap QueryCall.comparison?) s.conditions
  order : s.order = calls.filterMap QueryCall.key?
  limit : s.limit = (calls.filterMap QueryCall.limit?).getLast?
  offset : s.offset = (calls.filterMap QueryCall.offset?).getLast?

namespace QueryBuilder

def whereText (w : String × String × ColumnValue) : String :=
  "\"" ++ w.1 ++ "\" " ++ w.2.1 ++ " " ++ Row.toSqlLiteral w.2.2

/-- The builder holds the texts of what has been asked for. -/
structure Holds (pgSchema table : String) (calls : List QueryCall) (q : QueryBuilder) : Prop where
  schema : q.pgSchema = pgSchema
  table : q.table = table
  conditions : q.conditions = (calls.filterMap QueryCall.comparison?).map whereText
  order : (q.orderBy.map fun k => (k.1.toList, k.2 == .desc)) = calls.filterMap QueryCall.key?
  limit : q.limit.map Int64.toInt = (calls.filterMap QueryCall.limit?).getLast?
  offset : q.offset.map Int64.toInt = (calls.filterMap QueryCall.offset?).getLast?

variable {pgSchema table : String} {calls : List QueryCall} {q : QueryBuilder} {s : Select}

theorem holds_new : Holds pgSchema table [] (new pgSchema table) :=
  ⟨rfl, rfl, rfl, rfl, rfl, rfl⟩

theorem Holds.call (h : Holds pgSchema table calls q) (c : QueryCall) :
    Holds pgSchema table (calls ++ [c]) (q.call c) := by
  constructor
  · cases c <;> exact h.schema
  · cases c <;> exact h.table
  · cases c <;>
      simp [QueryBuilder.call, QueryCall.comparison?, List.filterMap_append, h.conditions, whereText]
  · cases c <;> simp [QueryBuilder.call, QueryCall.key?, List.filterMap_append, h.order]
  · cases c <;> simp [QueryBuilder.call, QueryCall.limit?, List.filterMap_append, h.limit]
  · cases c <;> simp [QueryBuilder.call, QueryCall.offset?, List.filterMap_append, h.offset]

theorem holds_foldl (calls : List QueryCall) :
    Holds pgSchema table calls (calls.foldl QueryBuilder.call (new pgSchema table)) := by
  induction calls using List.reverseRecOn with
  | nil => exact holds_new
  | append_singleton calls c ih =>
    rw [List.foldl_append]
    exact ih.call c

/-- The texts of the builder are read as the parts of the query. -/
structure Shows (q : QueryBuilder) (s : Select) : Prop where
  label : s.label = ['t']
  output : s.output = docTokens s.label
  schema : s.schema = q.pgSchema.toList
  table : s.table = q.table.toList
  conditions : List.Forall₂ (fun text c => Lexes text.toList c) q.conditions s.conditions
  isConditions : ∀ c ∈ s.conditions, isCondition c = true
  order : s.order = q.orderBy.map fun k => (k.1.toList, k.2 == .desc)
  limit : s.limit = q.limit.map Int64.toInt
  offset : s.offset = q.offset.map Int64.toInt
  names : IsName q.pgSchema ∧ IsName q.table ∧ ∀ k ∈ q.orderBy, IsName k.1
  nulFree : ∀ text ∈ q.conditions, NulFree text.toList

/-- A list of texts with a separator, if there is one. -/
def joined (sep : String) (texts : List String) : Option (List Char) :=
  if texts = [] then none else some (sep.toList.intercalate (texts.map String.toList))

def countText (n : Option Int64) : Option (List Char) := n.map fun n => (toString n).toList

def keyText (k : String × Dir) : String := "\"" ++ k.1 ++ "\" " ++ k.2.text

theorem toList_clause (sql w sep : String) (texts : List String) :
    (if texts.isEmpty then sql
      else sql ++ (" " ++ w ++ " ") ++ sep.intercalate texts).toList =
      sql.toList ++ Select.clauseText w (joined sep texts) := by
  unfold joined
  cases texts with
  | nil => exact (List.append_nil _).symm
  | cons text texts =>
    rw [if_neg (List.cons_ne_nil text texts), List.isEmpty_cons, if_neg (by decide)]
    simp [Select.clauseText]

theorem toList_count (sql w : String) (n : Option Int64) :
    (match n with
      | none => sql
      | some n => sql ++ (" " ++ w ++ " ") ++ toString n).toList =
      sql.toList ++ Select.clauseText w (countText n) := by
  cases n with
  | none => exact (List.append_nil _).symm
  | some n => simp [Select.clauseText, countText]

theorem toList_buildSql (q : QueryBuilder) : q.buildSql.toList =
    "SELECT row_to_json(t.*) as doc FROM ".toList ++
      ('"' :: (q.pgSchema.toList ++ '"' :: '.' :: '"' :: (q.table.toList ++ ['"'])) ++ [' ', 't']) ++
      Select.clauseText "WHERE" (joined " AND " q.conditions) ++
      Select.clauseText "ORDER BY" (joined ", " (q.orderBy.map keyText)) ++
      Select.clauseText "LIMIT" (countText q.limit) ++
      Select.clauseText "OFFSET" (countText q.offset) := by
  have hwhere : (" WHERE " : String) = " " ++ "WHERE" ++ " " := by decide
  have horder : (" ORDER BY " : String) = " " ++ "ORDER BY" ++ " " := by decide
  have hlimit : (" LIMIT " : String) = " " ++ "LIMIT" ++ " " := by decide
  have hoffset : (" OFFSET " : String) = " " ++ "OFFSET" ++ " " := by decide
  have hempty : q.orderBy.isEmpty = (q.orderBy.map keyText).isEmpty := by
    rw [List.isEmpty_map]
  have hkeys : (q.orderBy.map fun k => "\"" ++ k.1 ++ "\" " ++ k.2.text) =
      q.orderBy.map keyText := rfl
  have hnames : ("SELECT row_to_json(t.*) as doc FROM \"" ++ q.pgSchema ++ "\".\"" ++ q.table ++
      "\" t").toList = "SELECT row_to_json(t.*) as doc FROM ".toList ++
        ('"' :: (q.pgSchema.toList ++ '"' :: '.' :: '"' :: (q.table.toList ++ ['"'])) ++
          [' ', 't']) := by
    simp
  unfold buildSql
  dsimp only
  rw [hoffset, hlimit, horder, hwhere, toList_count, toList_count, hempty, hkeys, toList_clause,
    toList_clause, hnames]

theorem lex_head (rest : List Char) :
    lex ("SELECT row_to_json(t.*) as doc FROM ".toList ++ rest) =
      word "SELECT" :: (docTokens ['t'] ++ [word "FROM"]) ++ lex rest := by
  have hmode : modeAfter .plain "SELECT row_to_json(t.*) as doc FROM ".toList = .plain := by decide
  have hhead : emitted .plain "SELECT row_to_json(t.*) as doc FROM ".toList =
      word "SELECT" :: (docTokens ['t'] ++ [word "FROM"]) := by decide
  unfold lex
  rw [lexFrom_append, hmode, hhead]

theorem reads_names {schema table : List Char} (hschema : '"' ∉ schema) (htable : '"' ∉ table) :
    Lexes ('"' :: (schema ++ '"' :: '.' :: '"' :: (table ++ ['"'])) ++ [' ', 't'])
      [.quoted schema, .symbol '.', .quoted table, .word ['t']] := by
  have ht : Lexes ['t'] [.word ['t']] := reads_word rfl rfl
  intro rest hrest
  have hread : readQuoted '"' false
      (doubled '"' schema ++ '"' :: '.' :: '"' :: (table ++ '"' :: ' ' :: 't' :: rest)) =
      some (schema, '.' :: '"' :: (table ++ '"' :: ' ' :: 't' :: rest)) :=
    readQuoted_doubled (by simp)
  rw [doubled_of_not_mem hschema] at hread
  have htext : '"' :: (schema ++ '"' :: '.' :: '"' :: (table ++ ['"'])) ++ [' ', 't'] ++ rest =
      '"' :: (schema ++ '"' :: '.' :: '"' :: (table ++ '"' :: ' ' :: 't' :: rest)) := by simp
  have hrow := (reads_quoted htable).space ht rest hrest
  have hname : '"' :: (table ++ ['"']) ++ ' ' :: ['t'] ++ rest =
      '"' :: (table ++ '"' :: ' ' :: 't' :: rest) := by simp
  rw [hname] at hrow
  rw [htext, lex_quote (.inr rfl), hread]
  show Token.quoted schema :: lex ('.' :: _) = _
  rw [lex_symbol rfl, hrow]
  rfl

theorem rel_joined {sep : String} {us : List Token}
    (hjoin : ∀ parts : List (List Char × List Token), (∀ p ∈ parts, Lexes p.1 p.2) →
      Lexes (sep.toList.intercalate (parts.map Prod.fst)) (us.intercalate (parts.map Prod.snd)))
    {texts : List String} {bodies : List (List Token)}
    (h : List.Forall₂ (fun text ts => Lexes text.toList ts) texts bodies) :
    Option.Rel Lexes (joined sep texts)
      (if bodies = [] then none else some (us.intercalate bodies)) := by
  have hparts : ∃ parts : List (List Char × List Token), parts.map Prod.fst =
      texts.map String.toList ∧ parts.map Prod.snd = bodies ∧ ∀ p ∈ parts, Lexes p.1 p.2 := by
    induction h with
    | nil => exact ⟨[], rfl, rfl, by simp⟩
    | @cons text ts texts bodies hread _ ih =>
      obtain ⟨parts, hfst, hsnd, hall⟩ := ih
      refine ⟨(text.toList, ts) :: parts, ?_, ?_, ?_⟩
      · rw [List.map_cons, List.map_cons, hfst]
      · rw [List.map_cons, hsnd]
      · intro p hp
        rcases List.mem_cons.mp hp with rfl | hp
        · exact hread
        · exact hall p hp
  obtain ⟨parts, hfst, hsnd, hall⟩ := hparts
  have hread := hjoin parts hall
  rw [hfst, hsnd] at hread
  unfold joined
  cases h with
  | nil => exact .none
  | cons _ _ =>
    rw [if_neg (List.cons_ne_nil _ _), if_neg (List.cons_ne_nil _ _)]
    exact .some hread

theorem Shows.conditionsBody (h : Shows q s) :
    Option.Rel Lexes (joined " AND " q.conditions) (Select.conditionsBody s.conditions) :=
  rel_joined (fun _ => reads_and) h.conditions

theorem reads_keyText {k : String × Dir} (h : '"' ∉ k.1.toList) :
    Lexes (keyText k).toList (Select.keyTokens (k.1.toList, k.2 == .desc)) := by
  have hdir : Lexes k.2.text.toList [word (if k.2 == .desc then "DESC" else "ASC")] := by
    cases k.2 with
    | asc => exact reads_word (w := "SC".toList) (c := 'A') rfl (by decide)
    | desc => exact reads_word (w := "ESC".toList) (c := 'D') rfl (by decide)
  have htext : (keyText k).toList = '"' :: (k.1.toList ++ ['"']) ++ ' ' :: k.2.text.toList := by
    simp [keyText]
  rw [htext]
  exact (reads_quoted h).space hdir

theorem Shows.orderBody (h : Shows q s) :
    Option.Rel Lexes ((joined ", " (q.orderBy.map keyText)).map ("BY".toList ++ ' ' :: ·))
      (Select.orderBody s.order) := by
  have hby : Lexes "BY".toList [word "BY"] := reads_word (w := ['Y']) rfl rfl
  have hkeys : List.Forall₂ (fun text ts => Lexes text.toList ts) (q.orderBy.map keyText)
      (s.order.map Select.keyTokens) := by
    rw [h.order, List.map_map, List.forall₂_map_left_iff, List.forall₂_map_right_iff,
      List.forall₂_same]
    exact fun k hk => reads_keyText (h.names.2.2 k hk).1
  have hrel : Option.Rel Lexes (joined ", " (q.orderBy.map keyText))
      (if s.order.map Select.keyTokens = [] then none
        else some ([Token.symbol ','].intercalate (s.order.map Select.keyTokens))) :=
    rel_joined (fun _ => reads_commas) hkeys
  unfold Select.orderBody
  by_cases hempty : s.order = []
  · rw [if_pos (by rw [hempty]; rfl)] at hrel
    rw [if_pos hempty]
    cases hjoined : joined ", " (q.orderBy.map keyText) with
    | none => exact .none
    | some text =>
      rw [hjoined] at hrel
      cases hrel
  · rw [if_neg (by simpa using hempty)] at hrel
    rw [if_neg hempty]
    cases hjoined : joined ", " (q.orderBy.map keyText) with
    | none =>
      rw [hjoined] at hrel
      cases hrel
    | some text =>
      rw [hjoined] at hrel
      cases hrel with
      | some hread => exact .some (hby.space hread)

theorem rel_countText (n : Option Int64) :
    Option.Rel Lexes (countText n) (Select.countBody (n.map Int64.toInt)) := by
  cases n with
  | none => exact .none
  | some n =>
    have hread := (Decimal.ofInt n.toInt).reads
    rw [Decimal.text_ofInt] at hread
    exact .some hread

theorem Shows.lex_buildSql (h : Shows q s) : lex q.buildSql.toList = s.tokens := by
  have hlimit := rel_countText q.limit
  have hoffset := rel_countText q.offset
  rw [← h.limit] at hlimit
  rw [← h.offset] at hoffset
  have horder : Select.clauseText "ORDER BY" (joined ", " (q.orderBy.map keyText)) =
      Select.clauseText "ORDER"
        ((joined ", " (q.orderBy.map keyText)).map ("BY".toList ++ ' ' :: ·)) := by
    cases joined ", " (q.orderBy.map keyText) <;> rfl
  have hreadWhere := Select.reads_clause (w := "WHERE")
    (reads_word (w := "HERE".toList) rfl (by decide)) h.conditionsBody
  have hreadOrder := Select.reads_clause (w := "ORDER")
    (reads_word (w := "RDER".toList) rfl (by decide)) h.orderBody
  have hreadLimit := Select.reads_clause (w := "LIMIT")
    (reads_word (w := "IMIT".toList) rfl (by decide)) hlimit
  have hreadOffset := Select.reads_clause (w := "OFFSET")
    (reads_word (w := "FFSET".toList) rfl (by decide)) hoffset
  have hread := Select.reads_append_clause (Select.reads_append_clause (Select.reads_append_clause
    (Select.reads_append_clause (reads_names h.names.1.1 h.names.2.1.1) hreadWhere) hreadOrder)
    hreadLimit) hreadOffset
  rw [toList_buildSql, horder]
  simp only [List.append_assoc] at hread ⊢
  rw [lex_head, hread.lex_eq, Select.tokens, Select.tailTokens, h.output, h.label, h.schema, h.table]
  simp

theorem Shows.read_buildSql (h : Shows q s) : Select.read (lex q.buildSql.toList) = some s := by
  have hreadable : s.Readable := by
    refine ⟨?_, h.isConditions⟩
    rw [h.output, h.label]
    decide
  rw [h.lex_buildSql, Select.read_tokens s hreadable]

theorem nulFree_clauseText {w : String} (hw : NulFree w.toList) {text : Option (List Char)}
    (h : ∀ body ∈ text, NulFree body) : NulFree (Select.clauseText w text) := by
  cases text with
  | none => exact nulFree_nil
  | some body =>
    have hspace : ' ' ≠ Char.ofNat 0 := by decide
    have hbody : NulFree body := h body rfl
    unfold Select.clauseText
    simp [hspace, hw, hbody]

theorem nulFree_joined {sep : String} (hsep : NulFree sep.toList) {texts : List String}
    (h : ∀ text ∈ texts, NulFree text.toList) : ∀ body ∈ joined sep texts, NulFree body := by
  intro body hbody
  unfold joined at hbody
  split_ifs at hbody
  · cases hbody
  · rw [← Option.some.inj hbody, nulFree_intercalate hsep, List.forall_mem_map]
    exact h

theorem nulFree_countText (n : Option Int64) : ∀ body ∈ countText n, NulFree body := by
  intro body hbody
  obtain ⟨n, -, rfl⟩ := Option.map_eq_some_iff.mp hbody
  have htext := (Decimal.ofInt n.toInt).nulFree_text
  rw [Decimal.text_ofInt] at htext
  exact htext

theorem Shows.nulFree_buildSql (h : Shows q s) : NulFree q.buildSql.toList := by
  obtain ⟨hschema, htable, hkeys⟩ := h.names
  have hhead : NulFree "SELECT row_to_json(t.*) as doc FROM ".toList := by decide
  have hsymbols : NulFree ['"', '.', ' ', 't'] := by decide
  simp only [nulFree_cons] at hsymbols
  have hnames : NulFree ('"' :: (q.pgSchema.toList ++ '"' :: '.' :: '"' ::
      (q.table.toList ++ ['"'])) ++ [' ', 't']) := by
    simp [hsymbols, hschema.2, htable.2]
  have hkeyTexts : ∀ text ∈ q.orderBy.map keyText, NulFree text.toList := by
    rw [List.forall_mem_map]
    intro k hk
    have hdir : NulFree k.2.text.toList := by cases k.2 <;> decide
    simp [keyText, hsymbols, (hkeys k hk).2, hdir]
  rw [toList_buildSql]
  refine nulFree_append.mpr ⟨nulFree_append.mpr ⟨nulFree_append.mpr ⟨nulFree_append.mpr
    ⟨nulFree_append.mpr ⟨hhead, hnames⟩, ?_⟩, ?_⟩, ?_⟩, ?_⟩
  · exact nulFree_clauseText (by decide) (nulFree_joined (by decide) h.nulFree)
  · exact nulFree_clauseText (by decide) (nulFree_joined (by decide) hkeyTexts)
  · exact nulFree_clauseText (by decide) (nulFree_countText q.limit)
  · exact nulFree_clauseText (by decide) (nulFree_countText q.offset)

theorem reads_whereText {w : String × String × ColumnValue}
    (h : (QueryCall.where_ w.1 w.2.1 w.2.2).IsPlain) : ∃ c, QueryCall.Compares w c ∧
      Lexes (whereText w).toList c ∧ isCondition c = true ∧ NulFree (whereText w).toList := by
  obtain ⟨hcol, ⟨hopNul, hop, hplain⟩, hval⟩ := h
  obtain ⟨c, hconstant, hstands⟩ := ColumnValue.isConstant_toSqlLiteral hval
  have htext : (whereText w).toList = '"' :: (w.1.toList ++ ['"']) ++ ' ' ::
      (w.2.1.toList ++ ' ' :: (Row.toSqlLiteral w.2.2).toList) := by
    simp [whereText]
  have hsymbols : NulFree ['"', ' '] := by decide
  simp only [nulFree_cons] at hsymbols
  refine ⟨_, ⟨c, hstands, rfl⟩, ?_, isCondition_of_plain (List.cons_ne_nil _ _) ?_, ?_⟩
  · rw [htext]
    exact (reads_quoted hcol.1).space (hop.space hconstant.1)
  · intro t ht
    rcases List.mem_cons.mp ht with rfl | ht
    · simp [standsInCondition]
    · rcases List.mem_append.mp ht with ht | ht
      · exact hplain t ht
      · exact c.plain_tokens t ht
  · rw [htext]
    simp [hsymbols, hcol.2, hopNul, hconstant.2.2]

theorem exists_conditions {ws : List (String × String × ColumnValue)}
    (h : ∀ w ∈ ws, (QueryCall.where_ w.1 w.2.1 w.2.2).IsPlain) : ∃ cs,
      List.Forall₂ QueryCall.Compares ws cs ∧
      List.Forall₂ (fun text c => Lexes text.toList c) (ws.map whereText) cs ∧
      (∀ c ∈ cs, isCondition c = true) ∧ ∀ text ∈ ws.map whereText, NulFree text.toList := by
  induction ws with
  | nil => exact ⟨[], .nil, .nil, by simp, by simp⟩
  | cons w ws ih =>
    obtain ⟨cs, hcompares, hreads, hconditions, hnul⟩ :=
      ih fun v hv => h v (List.mem_cons_of_mem w hv)
    obtain ⟨c, hcompare, hread, hcondition, htext⟩ := reads_whereText (h w List.mem_cons_self)
    exact ⟨c :: cs, .cons hcompare hcompares, .cons hread hreads,
      List.forall_mem_cons.mpr ⟨hcondition, hconditions⟩,
      List.forall_mem_cons.mpr ⟨htext, hnul⟩⟩

theorem Holds.exists_shows (h : Holds pgSchema table calls q) (hschema : IsName pgSchema)
    (htable : IsName table) (hcalls : ∀ c ∈ calls, c.IsPlain) :
    ∃ s, Asks pgSchema table calls s ∧ Shows q s := by
  have hwheres : ∀ w ∈ calls.filterMap QueryCall.comparison?,
      (QueryCall.where_ w.1 w.2.1 w.2.2).IsPlain := by
    intro w hw
    obtain ⟨c, hc, hcw⟩ := List.mem_filterMap.mp hw
    cases c with
    | where_ col op val =>
      obtain rfl := Option.some.inj hcw
      exact hcalls _ hc
    | _ => cases hcw
  have hkeys : ∀ k ∈ q.orderBy, IsName k.1 := by
    intro k hk
    have hmem : (k.1.toList, k.2 == .desc) ∈ calls.filterMap QueryCall.key? := by
      rw [← h.order]
      exact List.mem_map_of_mem hk
    obtain ⟨c, hc, hck⟩ := List.mem_filterMap.mp hmem
    cases c with
    | orderBy col dir =>
      have hcol : col = k.1 := String.toList_inj.mp (congrArg Prod.fst (Option.some.inj hck))
      rw [← hcol]
      exact hcalls _ hc
    | _ => cases hck
  obtain ⟨cs, hcompares, hreads, hconditions, hnul⟩ := exists_conditions hwheres
  rw [← h.conditions] at hreads hnul
  refine ⟨{
      output := docTokens ['t']
      schema := pgSchema.toList
      table := table.toList
      label := ['t']
      conditions := cs
      order := calls.filterMap QueryCall.key?
      limit := (calls.filterMap QueryCall.limit?).getLast?
      offset := (calls.filterMap QueryCall.offset?).getLast? },
    ⟨rfl, rfl, rfl, rfl, hcompares, rfl, rfl, rfl⟩, ?_⟩
  refine ⟨rfl, rfl, ?_, ?_, hreads, hconditions, h.order.symm, h.limit.symm, h.offset.symm, ?_,
    hnul⟩
  · rw [h.schema]
  · rw [h.table]
  · rw [h.schema, h.table]
    exact ⟨hschema, htable, hkeys⟩

theorem Shows.fetch {E D : Type} (db : Catalog E D) (h : Shows q s) :
    db.fetch q.buildSql = db.answer s := by
  unfold Catalog.fetch
  rw [if_pos h.nulFree_buildSql, h.read_buildSql]
  exact if_pos h.output

/-- The text of a chain of calls is read as what the calls ask for.  `all` returns what the database
answers to this, and `first` the first row of its answer with the limit one, whatever limit was set. -/
theorem answers_of_calls {E D T : Type} (db : Catalog E D) (fromValue : D → Except String T)
    {pgSchema table : String} {calls : List QueryCall} (hschema : IsName pgSchema)
    (htable : IsName table) (hcalls : ∀ c ∈ calls, c.IsPlain) :
    ∃ s, Asks pgSchema table calls s ∧
      (calls.foldl call (new pgSchema table)).all db.fetch fromValue =
        (match db.answer s with
          | .error refusal => .error (.query table refusal)
          | .ok rows => rows.mapM (decode fromValue)) ∧
      (calls.foldl call (new pgSchema table)).first db.fetch fromValue =
        (match db.answer { s with limit := some 1 } with
          | .error refusal => .error (.query table refusal)
          | .ok [] => .ok none
          | .ok (row :: _) => (decode fromValue row).map some) := by
  have hholds : Holds pgSchema table calls (calls.foldl call (new pgSchema table)) :=
    holds_foldl calls
  obtain ⟨s, hasks, hshows⟩ := hholds.exists_shows hschema htable hcalls
  generalize hq : calls.foldl call (new pgSchema table) = q at hholds hshows
  have hone : Shows { q with limit := some 1 } { s with limit := some 1 } :=
    { hshows with limit := rfl }
  refine ⟨s, hasks, ?_, ?_⟩
  · unfold all
    rw [hshows.fetch, hholds.table]
  · unfold first
    rw [hone.fetch, hholds.table]

/-- Two rows, the holder and the block, which are shown as the block. -/
def holders : List (String × ℕ) := [("Ada", 1), ("O'Brien", 2)]

/-- A database with one table, read for an equation with the holder and a limit. -/
def holderDb : Catalog String ℕ where
  answer s :=
    if s.schema ≠ "public".toList ∨ s.table ≠ "transfers".toList then .error "no such table"
    else if s.limit.any (· < 0) then .error "LIMIT must not be negative"
    else
      let found := holders.filter fun r => s.conditions.all fun condition =>
        condition == [.quoted "holder".toList, .symbol '=', .string r.1.toList]
      .ok (match s.limit with
        | none => found.map Prod.snd
        | some n => (found.take n.toNat).map Prod.snd)
  notRead := "syntax error"

/-- The quote of the value is part of the value, and `first` has no use for the limit. -/
theorem answers_of_calls_holder :
    ∃ s, Asks "public" "transfers" [.where_ "holder" "=" (.text "O'Brien"), .limit 0] s ∧
      (((new "public" "transfers").call (.where_ "holder" "=" (.text "O'Brien"))).call
        (.limit 0)).all holderDb.fetch Except.ok = .ok [] ∧
      (((new "public" "transfers").call (.where_ "holder" "=" (.text "O'Brien"))).call
        (.limit 0)).first holderDb.fetch Except.ok = .ok (some 2) := by
  have hplain : ∀ c ∈ [QueryCall.where_ "holder" "=" (.text "O'Brien"), .limit 0], c.IsPlain := by
    intro c hc
    rcases List.mem_cons.mp hc with rfl | hc
    · have hvalue : NulFree "O'Brien".toList := by decide
      exact ⟨by decide, ⟨by decide, reads_symbol rfl, by decide⟩, hvalue⟩
    · rw [List.mem_singleton.mp hc]
      trivial
  obtain ⟨s, hasks, hall, hfirst⟩ := answers_of_calls holderDb (fun n => .ok n)
    (by decide : IsName "public") (by decide : IsName "transfers") hplain
  have hconditions : s.conditions =
      [[.quoted "holder".toList, .symbol '=', .string "O'Brien".toList]] := by
    have hcompares : List.Forall₂ QueryCall.Compares [("holder", "=", .text "O'Brien")]
        s.conditions := hasks.conditions
    rw [List.forall₂_cons_left_iff] at hcompares
    obtain ⟨_, _, ⟨c, hstands, rfl⟩, hnil, hs⟩ := hcompares
    rw [hs, List.forall₂_nil_left_iff.mp hnil]
    rcases hstands with hdenoted | ⟨display, n, hfloat, -⟩
    · cases c with
      | string v =>
        obtain rfl : v = "O'Brien".toList := hdenoted
        rfl
      | _ => exact absurd hdenoted id
    · cases hfloat
  have hs : s =
      { output := docTokens ['t']
        schema := "public".toList
        table := "transfers".toList
        label := ['t']
        conditions := [[.quoted "holder".toList, .symbol '=', .string "O'Brien".toList]]
        order := []
        limit := some 0
        offset := none } := by
    have houtput := hasks.output
    rw [hasks.label] at houtput
    cases s
    simp only [Select.mk.injEq]
    exact ⟨houtput, hasks.schema, hasks.table, hasks.label, hconditions, hasks.order, hasks.limit,
      hasks.offset⟩
  refine ⟨s, hasks, hall.trans ?_, hfirst.trans ?_⟩
  · rw [hs]
    decide
  · rw [hs]
    decide

end QueryBuilder

end ForgeIndex
