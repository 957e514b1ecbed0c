import ForgeIndex.Api.Graphql.Listing

/-!
# Reading a list page by page

A client that calls `resolve_list` again with the last `endCursor` while there is a next page.
-/

namespace ForgeIndex

open Text SqlLexer

namespace Resolver

/-- A value of an order column: a string, a truth value, or an integer of 64 bits. -/
def IsOrderValue (v : Json) : Prop :=
  (∃ s, v = .string s) ∨ (∃ b, v = .bool b) ∨
    ∃ n : ℤ, -2 ^ 63 ≤ n ∧ n < 2 ^ 63 ∧ v = .number (toString n)

theorem isJsonNumber_toString (n : ℤ) : IsJsonNumber (toString n).toList := by
  have hnat (m : ℕ) : ∃ d ds, m.repr.toList = d :: ds ∧ ∀ c ∈ d :: ds, c.isDigit = true := by
    obtain ⟨d, ds, hds⟩ := List.exists_cons_of_ne_nil (Nat.toDigits_ne_nil (n := m) (b := 10))
    refine ⟨d, ds, by rw [Nat.toList_repr, hds], fun c hc => ?_⟩
    rw [← hds] at hc
    exact Nat.isDigit_of_mem_toDigits (by omega) (by omega) hc
  cases n with
  | ofNat m =>
    obtain ⟨d, ds, hm, hdigits⟩ := hnat m
    refine ⟨[], d, ds, [], [], ?_, .inl rfl, hdigits, .inl rfl, .inl rfl⟩
    show m.repr.toList = _
    rw [hm]
    simp
  | negSucc m =>
    obtain ⟨d, ds, hm, hdigits⟩ := hnat (m + 1)
    refine ⟨['-'], d, ds, [], [], ?_, .inr rfl, hdigits, .inl rfl, .inl rfl⟩
    show ("-" ++ (m + 1).repr).toList = _
    rw [String.toList_append, hm]
    simp

theorem IsOrderValue.number {v : Json} (h : IsOrderValue v) :
    ∀ text, v = .number text → IsJsonNumber text.toList := by
  rintro text rfl
  rcases h with ⟨s, hs⟩ | ⟨b, hb⟩ | ⟨n, -, -, hn⟩
  · cases hs
  · cases hb
  · rw [Json.number.inj hn]
    exact isJsonNumber_toString n

theorem constantValue_valueTokens {v : Json} (h : IsOrderValue v) :
    RowComparison.constantValue (valueTokens v) = some v := by
  rcases h with ⟨s, rfl⟩ | ⟨b, rfl⟩ | ⟨n, -, -, rfl⟩
  · exact RowComparison.constantValue_string s
  · exact RowComparison.constantValue_bool b
  · exact RowComparison.constantValue_numberTokens (toString n)

/-- The tokens of a cursor condition. -/
def comparisonTokens (op : Char) (orderCol pkCol : List Char) (c : CursorData) : List Token :=
  .symbol '(' :: ([.quoted orderCol, .symbol ',', .quoted pkCol] ++ [.symbol ')']) ++
    ([.symbol op] ++ .symbol '(' :: ((valueTokens c.orderVal ++ .symbol ',' ::
      [.string c.pkValue]) ++ [.symbol ')']))

theorem reads_cursorCondition {op : Char} (hop : op = '>' ∨ op = '<') {orderCol pkCol : List Char}
    (horder : '"' ∉ orderCol) (hpk : '"' ∉ pkCol) {c : CursorData}
    (hnumber : ∀ text, c.orderVal = .number text → IsJsonNumber text.toList)
    (hkey : '\'' ∉ c.pkValue) :
    Lexes (cursorCondition op orderCol pkCol c) (comparisonTokens op orderCol pkCol c) := by
  have hcolumns := (reads_quoted horder).comma (reads_quoted hpk)
  have hstring := reads_string c.pkValue
  rw [doubled_of_not_mem hkey] at hstring
  have hvalues := (reads_valueToSql hnumber).comma hstring
  have hsymbol : Lexes [op] [.symbol op] := reads_symbol (by rcases hop with rfl | rfl <;> rfl)
  have hread := hcolumns.parens.space (hsymbol.space hvalues.parens)
  have htext : cursorCondition op orderCol pkCol c =
      '(' :: ('"' :: (orderCol ++ ['"']) ++ ',' :: ' ' :: '"' :: (pkCol ++ ['"']) ++ [')']) ++
        ' ' :: ([op] ++ ' ' :: '(' :: (valueToSql c.orderVal ++ ',' :: ' ' ::
          '\'' :: (c.pkValue ++ ['\'']) ++ [')'])) := by
    simp [cursorCondition]
  rw [htext]
  exact hread

theorem isCondition_comparisonTokens {op : Char} (hop : op = '>' ∨ op = '<')
    (orderCol pkCol : List Char) (c : CursorData) :
    isCondition (comparisonTokens op orderCol pkCol c) = true := by
  have hop' : op ≠ '(' ∧ op ≠ ')' := by rcases hop with rfl | rfl <;> decide
  have hvalue := Filters.stands_valueTokens c.orderVal
  have hstands : (comparisonTokens op orderCol pkCol c).all standsInCondition = true := by
    rw [List.all_eq_true]
    unfold comparisonTokens
    intro t ht
    simp only [List.mem_append, List.mem_cons, List.not_mem_nil, or_false] at ht
    rcases ht with (rfl | (rfl | rfl | rfl) | rfl) | rfl | rfl | (ht | rfl | rfl) | rfl <;>
      first
        | rfl
        | exact (hvalue t ht).1
  have hcolumns : balanced 0 [.quoted orderCol, .symbol ',', .quoted pkCol] = true := by
    apply balanced_of_forall
    simp
  have hvalues : balanced 0 (valueTokens c.orderVal ++ .symbol ',' :: [.string c.pkValue]) = true := by
    apply balanced_of_forall
    intro t ht
    rcases List.mem_append.mp ht with ht | ht
    · exact (hvalue t ht).2
    · rcases List.mem_cons.mp ht with rfl | ht
      · simp
      · rw [List.mem_singleton.mp ht]
        simp
  have hbalanced : balanced 0 (comparisonTokens op orderCol pkCol c) = true := by
    have hsecond := balanced_parens hvalues []
    have hfirst := balanced_parens hcolumns (.symbol op :: .symbol '(' ::
      ((valueTokens c.orderVal ++ .symbol ',' :: [.string c.pkValue]) ++ [.symbol ')']))
    have hsymbol := balanced_cons (t := .symbol op) (by simpa using hop'.1) (by simpa using hop'.2) 0
      (.symbol '(' :: ((valueTokens c.orderVal ++ .symbol ',' :: [.string c.pkValue]) ++
        [.symbol ')']))
    have hall := hfirst.trans (hsymbol.trans hsecond)
    unfold comparisonTokens
    simpa [balanced] using hall
  unfold isCondition
  rw [hstands, hbalanced]
  rfl

theorem ofTokens_comparisonTokens {op : Char} (hop : op = '>' ∨ op = '<')
    (orderCol pkCol : String) {c : CursorData} (hvalue : IsOrderValue c.orderVal) :
    RowComparison.ofTokens (comparisonTokens op orderCol.toList pkCol.toList c) =
      some ⟨op, orderCol, pkCol, c.orderVal, .string (String.ofList c.pkValue)⟩ := by
  have htokens : comparisonTokens op orderCol.toList pkCol.toList c =
      .symbol '(' :: .quoted orderCol.toList :: .symbol ',' :: .quoted pkCol.toList ::
        .symbol ')' :: .symbol op :: .symbol '(' ::
          (valueTokens c.orderVal ++ [.symbol ',', .string c.pkValue, .symbol ')']) := by
    simp [comparisonTokens]
  have hreverse : (valueTokens c.orderVal ++
      [Token.symbol ',', .string c.pkValue, .symbol ')']).reverse =
        .symbol ')' :: .string c.pkValue :: .symbol ',' :: (valueTokens c.orderVal).reverse := by
    simp
  rw [htokens, RowComparison.ofTokens, hreverse]
  dsimp only
  rw [if_pos ⟨rfl, hop⟩, List.reverse_reverse, constantValue_valueTokens hvalue,
    String.ofList_toList, String.ofList_toList]
  rfl

section Page

variable {K : Type}

/-- What a cursor holds of a row. -/
def cursorData (args : ListArgs) (row : DbRow) : CursorData :=
  ⟨((row args.pkCol).asStr.getD "").toList, args.orderCol.toList, row args.orderCol⟩

/-- The cursor of a row. -/
def rowCursor (serde : Serde) (args : ListArgs) (row : DbRow) : List Char :=
  Pagination.encodeCursor serde.toStr (cursorData args row).pkValue args.orderCol.toList
    (row args.orderCol)

/-- A query of the GraphQL schema for a table with a text key: the columns are the table's, the
order values can be compared, the keys have no quote and are unique, and the library reads the
cursors of the rows as it has written them.  No name and no text of the database has U+0000. -/
structure Listable (db : Database K) (serde : Serde) (args : ListArgs) : Prop where
  pkCol_mem : args.pkCol ∈ args.columns
  orderCol_mem : args.orderCol ∈ args.columns
  quotable : ∀ c ∈ args.columns, '"' ∉ c.toList
  names : ∀ name ∈ args.pgSchema :: args.table :: args.columns, NulFree name.toList
  filter_fields : ∀ f, args.filter = some f → Filters.IsFilter args.columns f
  key_text : ∀ row ∈ db.relation args.pgSchema args.table,
    ∃ key, row args.pkCol = .string key ∧ '\'' ∉ key.toList ∧ NulFree key.toList
  key_unique : ((db.relation args.pgSchema args.table).map fun row =>
    db.rank args.pkCol (row args.pkCol)).Nodup
  order_value : ∀ row ∈ db.relation args.pgSchema args.table,
    IsOrderValue (row args.orderCol) ∧ ∀ s, row args.orderCol = .string s → NulFree s.toList
  roundTrip : ∀ row ∈ db.relation args.pgSchema args.table, ∃ json,
    serde.toStr (cursorData args row) = some json ∧
      serde.fromStr json = some (cursorData args row)
  limit_pos : ∀ n, args.limit = some n → 1 ≤ n

variable {db : Database K} {serde : Serde} {args : ListArgs}

/-- The conditions that the filter stands for. -/
def filterConditions (filter : Option Json) : List (List Char) :=
  match filter with
  | none => []
  | some f => Filters.conditions f

theorem Listable.filterConditions (h : Listable db serde args) :
    ∀ text ∈ Resolver.filterConditions args.filter, ReadsCondition text := by
  intro text htext
  cases hfilter : args.filter with
  | none =>
    rw [hfilter] at htext
    cases htext
  | some f =>
    rw [hfilter] at htext
    exact Filters.readsCondition_of_mem_conditions h.quotable (h.filter_fields f hfilter) htext

theorem filterParts_of_nil {filter : Option Json} (hnil : filterConditions filter = []) :
    filterParts filter = [] := by
  cases filter with
  | none => rfl
  | some f =>
    have hsql : (Filters.filtersToSql f).1 = [] := by
      have hf : Filters.conditions f = [] := hnil
      unfold Filters.filtersToSql
      rw [hf]
      rfl
    unfold filterParts
    dsimp only
    rw [hsql]
    rfl

theorem filterParts_of_ne_nil {filter : Option Json}
    (h : ∀ text ∈ filterConditions filter, ReadsCondition text)
    (hne : filterConditions filter ≠ []) :
    filterParts filter = [" AND ".toList.intercalate (filterConditions filter)] := by
  cases filter with
  | none => exact absurd rfl hne
  | some f =>
    obtain ⟨text, texts, hconditions⟩ := List.exists_cons_of_ne_nil hne
    have htext : text ≠ [] := (h text (by rw [hconditions]; exact List.mem_cons_self)).ne_nil
    have hclause : (" AND ".toList.intercalate (text :: texts)).isEmpty = false := by
      cases texts with
      | nil => simpa using htext
      | cons text' texts => simp
    have hsql : (Filters.filtersToSql f).1 = " AND ".toList.intercalate (text :: texts) := by
      have hf : Filters.conditions f = text :: texts := hconditions
      unfold Filters.filtersToSql
      rw [hf]
      rfl
    unfold filterParts
    dsimp only
    rw [hsql, hclause, if_neg Bool.false_ne_true, hconditions]

theorem get_document {columns : List String} {c : String} (h : c ∈ columns) (row : DbRow) :
    (Database.document columns row).get c = some (row c) := by
  unfold Database.document
  show Json.find c (columns.map fun c => .mk c (row c)) = some (row c)
  induction columns with
  | nil => cases h
  | cons d columns ih =>
    rw [List.map_cons, Json.find]
    split_ifs with hd
    · rw [hd]
    · exact ih ((List.mem_cons.mp h).resolve_left (Ne.symm hd))

theorem itemCursor_document (h : Listable db serde args) {row : DbRow}
    (hrow : row ∈ db.relation args.pgSchema args.table) :
    itemCursor serde args.pkCol args.orderCol (Database.document args.columns row) =
      some (rowCursor serde args row) := by
  obtain ⟨key, hkey, -⟩ := h.key_text row hrow
  unfold itemCursor rowCursor cursorData
  rw [get_document h.pkCol_mem, get_document h.orderCol_mem, hkey]
  rfl

theorem Listable.limit_bounds (h : Listable db serde args) :
    1 ≤ args.effectiveLimit ∧ args.effectiveLimit ≤ 1000 := by
  unfold ListArgs.effectiveLimit
  cases hlimit : args.limit with
  | none => decide
  | some n =>
    have hn := h.limit_pos n hlimit
    rw [Option.getD_some]
    omega

/-- The number of rows of a full page. -/
def pageSize (args : ListArgs) : ℕ := asUsize args.effectiveLimit

theorem Listable.pageSize_eq (h : Listable db serde args) :
    (pageSize args : ℤ) = args.effectiveLimit := by
  have hbounds := h.limit_bounds
  unfold pageSize asUsize
  omega

theorem Listable.pageSize_pos (h : Listable db serde args) : 0 < pageSize args := by
  have hsize := h.pageSize_eq
  have hbounds := h.limit_bounds
  omega

theorem cursorParts_rowCursor (h : Listable db serde args) {last : DbRow}
    (hlast : last ∈ db.relation args.pgSchema args.table) :
    cursorParts serde.fromStr '>' args.orderCol.toList args.pkCol.toList
      (some (rowCursor serde args last)) =
        [cursorCondition '>' args.orderCol.toList args.pkCol.toList (cursorData args last)] := by
  obtain ⟨json, hwrite, hread⟩ := h.roundTrip last hlast
  have hdecode : Pagination.decodeCursor serde.fromStr (rowCursor serde args last) =
      .ok (cursorData args last) := Pagination.decodeCursor_encodeCursor hwrite hread
  unfold cursorParts
  dsimp only
  rw [hdecode]

/-- PostgreSQL takes the queries: `doc` and `r` have a meaning of their own in them, and no condition
of the filter has U+0000. -/
def Readable (args : ListArgs) : Prop :=
  args.orderCol ≠ "doc" ∧ args.pkCol ≠ "doc" ∧ "r" ∉ args.columns ∧
    ∀ text ∈ filterParts args.filter, NulFree text

instance (args : ListArgs) : Decidable (Readable args) :=
  inferInstanceAs (Decidable (_ ∧ _ ∧ _ ∧ _))

/-- The conditions of one call. -/
def pageParts (serde : Serde) (args : ListArgs) (after : Option (List Char)) : List (List Char) :=
  filterParts args.filter ++
    cursorParts serde.fromStr '>' args.orderCol.toList args.pkCol.toList after

theorem pageParts_eq (serde : Serde) (args : ListArgs) (after : Option (List Char)) :
    filterParts args.filter ++
      cursorParts serde.fromStr '>' args.orderCol.toList args.pkCol.toList after ++
        cursorParts serde.fromStr '<' args.orderCol.toList args.pkCol.toList none =
      pageParts serde args after := List.append_nil _

theorem nulFree_whereText {parts : List (List Char)} :
    NulFree (whereText (whereClause parts)) ↔ ∀ text ∈ parts, NulFree text := by
  have hwhere : NulFree " WHERE ".toList := by decide
  have hand : NulFree " AND ".toList := by decide
  cases parts with
  | nil => exact iff_of_true nulFree_nil (List.forall_mem_nil _)
  | cons text texts =>
    unfold whereClause
    rw [List.isEmpty_cons, if_neg Bool.false_ne_true]
    show NulFree (" WHERE ".toList ++ " AND ".toList.intercalate (text :: texts)) ↔ _
    rw [nulFree_append, nulFree_intercalate hand]
    exact and_iff_right hwhere

theorem Listable.nulFree_dataSql (h : Listable db serde args) (clause : Option (List Char)) :
    NulFree (DataQuery.sql ⟨args.pgSchema, args.table, args.columns, clause, args.orderCol,
      args.pkCol, args.dir, args.effectiveLimit + 1⟩) ↔ NulFree (whereText clause) := by
  have hnames := h.names
  rw [List.forall_mem_cons, List.forall_mem_cons] at hnames
  obtain ⟨hschema, htable, hcolumns⟩ := hnames
  have hcomma : NulFree ", ".toList := by decide
  have hlist : NulFree (", ".toList.intercalate (args.columns.map Filters.quoteName)) := by
    rw [nulFree_intercalate hcomma, List.forall_mem_map]
    exact fun c hc => Filters.nulFree_quoteName (hcolumns c hc)
  have hdir : NulFree args.dir.text := by cases args.dir <;> decide
  have hlimit : NulFree (toString (args.effectiveLimit + 1)).toList :=
    nulFree_number (isJsonNumber_toString _)
  have htexts : ∀ text ∈ ["SELECT row_to_json((SELECT r FROM (SELECT ", ") AS r)) AS doc FROM ",
      " ORDER BY ", ", ", " LIMIT "], NulFree text.toList := by decide
  have hsymbols : NulFree ['.', ' '] := by decide
  simp only [List.forall_mem_cons] at htexts
  simp only [nulFree_cons] at hsymbols
  unfold DataQuery.sql
  simp only [nulFree_append, nulFree_cons, htexts, hsymbols, hlist, hdir, hlimit,
    Filters.nulFree_quoteName hschema, Filters.nulFree_quoteName htable,
    Filters.nulFree_quoteName (hcolumns _ h.orderCol_mem),
    Filters.nulFree_quoteName (hcolumns _ h.pkCol_mem), true_and, and_true, ne_eq, not_false_eq_true]

theorem Listable.nulFree_countSql (h : Listable db serde args) (clause : Option (List Char)) :
    NulFree (CountQuery.sql ⟨args.pgSchema, args.table, clause⟩) ↔ NulFree (whereText clause) := by
  have hnames := h.names
  rw [List.forall_mem_cons, List.forall_mem_cons] at hnames
  obtain ⟨hschema, htable, -⟩ := hnames
  have hselect : NulFree "SELECT COUNT(*) FROM ".toList := by decide
  have hpoint : '.' ≠ Char.ofNat 0 := by decide
  unfold CountQuery.sql
  simp only [nulFree_append, nulFree_cons, hselect, Filters.nulFree_quoteName hschema,
    Filters.nulFree_quoteName htable, true_and, ne_eq, hpoint, not_false_eq_true]

theorem Listable.accepted_iff (h : Listable db serde args) (after : Option (List Char)) :
    DataQuery.Accepted ⟨args.pgSchema, args.table, args.columns,
      whereClause (pageParts serde args after), args.orderCol, args.pkCol, args.dir,
      args.effectiveLimit + 1⟩ ↔ Readable args ∧
        ∀ text ∈ cursorParts serde.fromStr '>' args.orderCol.toList args.pkCol.toList after,
          NulFree text := by
  unfold DataQuery.Accepted Readable
  rw [h.nulFree_dataSql, nulFree_whereText]
  unfold pageParts
  rw [List.forall_mem_append]
  tauto

theorem nulFree_rowCursor (h : Listable db serde args) {last : DbRow}
    (hlast : last ∈ db.relation args.pgSchema args.table) :
    ∀ text ∈ cursorParts serde.fromStr '>' args.orderCol.toList args.pkCol.toList
      (some (rowCursor serde args last)), NulFree text := by
  obtain ⟨key, hkey, -, hnul⟩ := h.key_text last hlast
  obtain ⟨hvalue, hstring⟩ := h.order_value last hlast
  have hpkValue : (cursorData args last).pkValue = key.toList := by
    unfold cursorData
    rw [hkey]
    rfl
  have hnames : ∀ c ∈ args.columns, NulFree c.toList := fun c hc =>
    h.names c (List.mem_cons_of_mem _ (List.mem_cons_of_mem _ hc))
  rw [cursorParts_rowCursor h hlast, List.forall_mem_singleton,
    nulFree_cursorCondition (.inl rfl) hvalue.number]
  refine ⟨hnames _ h.orderCol_mem, hnames _ h.pkCol_mem, hstring, ?_⟩
  rw [hpkValue]
  exact hnul

variable [LinearOrder K]

/-- The rows that meet the filter. -/
def matching (db : Database K) (args : ListArgs) : List DbRow :=
  (db.relation args.pgSchema args.table).filter
    (db.satisfies (whereClause (filterParts args.filter)))

/-- The place of a row in the order of the query. -/
def rowPlace (db : Database K) (args : ListArgs) : DbRow → K ×ₗ K :=
  db.place args.orderCol args.pkCol

theorem satisfies_conditions (db : Database K) (row : DbRow) {texts : List (List Char)}
    (h : ∀ text ∈ texts, ReadsCondition text) :
    db.satisfies (whereClause texts) row = texts.all fun text => db.truth row (lex text) := by
  cases texts with
  | nil => rfl
  | cons text texts =>
    exact holds_and (db.truth row) (fun ts => db.other ts row) (List.cons_ne_nil text texts) h

theorem whereClause_filterParts {filter : Option Json}
    (hfilter : ∀ text ∈ filterConditions filter, ReadsCondition text) (texts : List (List Char)) :
    whereClause (filterParts filter ++ texts) = whereClause (filterConditions filter ++ texts) := by
  by_cases hnil : filterConditions filter = []
  · rw [filterParts_of_nil hnil, hnil]
  · have hempty : (filterConditions filter ++ texts).isEmpty = false := by
      rw [List.isEmpty_eq_false_iff]
      exact fun h => hnil (List.append_eq_nil_iff.mp h).1
    rw [filterParts_of_ne_nil hfilter hnil]
    unfold whereClause
    rw [hempty, List.singleton_append, List.isEmpty_cons, intercalate_intercalate_cons hnil]

/-- Conditions behind the filter are conditions on the rows that meet the filter. -/
theorem satisfies_filterParts_append (db : Database K) {filter : Option Json}
    (hfilter : ∀ text ∈ filterConditions filter, ReadsCondition text) (row : DbRow)
    {texts : List (List Char)} (htexts : ∀ text ∈ texts, ReadsCondition text) :
    db.satisfies (whereClause (filterParts filter ++ texts)) row =
      (db.satisfies (whereClause (filterParts filter)) row &&
        texts.all fun text => db.truth row (lex text)) := by
  have hall : ∀ t ∈ filterConditions filter ++ texts, ReadsCondition t := by
    intro t ht
    rcases List.mem_append.mp ht with ht | ht
    · exact hfilter t ht
    · exact htexts t ht
  have hfirst : whereClause (filterParts filter) = whereClause (filterConditions filter) := by
    have hnone := whereClause_filterParts hfilter []
    rw [List.append_nil, List.append_nil] at hnone
    exact hnone
  rw [whereClause_filterParts hfilter, hfirst, satisfies_conditions db row hall,
    satisfies_conditions db row hfilter, List.all_append]

theorem truth_cursorCondition (h : Listable db serde args) {last : DbRow}
    (hlast : last ∈ db.relation args.pgSchema args.table) :
    ReadsCondition (cursorCondition '>' args.orderCol.toList args.pkCol.toList
        (cursorData args last)) ∧
      ∀ row, db.truth row (lex (cursorCondition '>' args.orderCol.toList args.pkCol.toList
        (cursorData args last))) = decide (rowPlace db args last < rowPlace db args row) := by
  obtain ⟨key, hkey, hquote, -⟩ := h.key_text last hlast
  have hvalue : IsOrderValue (cursorData args last).orderVal := (h.order_value last hlast).1
  have hpkValue : (cursorData args last).pkValue = key.toList := by
    unfold cursorData
    rw [hkey]
    rfl
  have hread := reads_cursorCondition (.inl rfl) (h.quotable _ h.orderCol_mem)
    (h.quotable _ h.pkCol_mem) hvalue.number (by rw [hpkValue]; exact hquote)
  refine ⟨⟨_, hread, isCondition_comparisonTokens (.inl rfl) _ _ _⟩, fun row => ?_⟩
  rw [hread.lex_eq]
  unfold Database.truth
  rw [ofTokens_comparisonTokens (.inl rfl) args.orderCol args.pkCol hvalue, hpkValue,
    String.ofList_toList, ← hkey]
  rfl

/-- A call of the client. -/
def fetchPage (pool : Pool) (serde : Serde) (args : ListArgs) (after : Option (List Char)) :
    Except String (Keyset.Page (List Char) Json) :=
  (resolveList pool serde args after none).map fun r =>
    ⟨r.items, r.pageInfo.endCursor, r.pageInfo.hasNextPage⟩

/-- The rows behind a cursor, in order. -/
def rowsAfter (db : Database K) (serde : Serde) (args : ListArgs) (after : Option (List Char)) :
    List DbRow :=
  db.sorted args.dir args.orderCol args.pkCol ((db.relation args.pgSchema args.table).filter
    (db.satisfies (whereClause (filterParts args.filter ++
      cursorParts serde.fromStr '>' args.orderCol.toList args.pkCol.toList after))))

theorem perm_sorted (db : Database K) (dir : OrderDirection) (orderCol pkCol : String)
    (rows : List DbRow) : (db.sorted dir orderCol pkCol rows).Perm rows := by
  cases dir with
  | ASC => exact Keyset.perm_ordered _ rows
  | DESC => exact Keyset.perm_ordered _ rows

theorem mem_of_mem_rowsAfter {after : Option (List Char)} {row : DbRow}
    (h : row ∈ rowsAfter db serde args after) : row ∈ db.relation args.pgSchema args.table :=
  (List.mem_filter.mp ((perm_sorted db _ _ _ _).mem_iff.mp h)).1

/-- A page has the first rows behind the cursor; one row more tells that there is a next page. -/
theorem fetchPage_eq (h : Listable db serde args) (hreadable : Readable args)
    {after : Option (List Char)}
    (hafter : ∀ text ∈ cursorParts serde.fromStr '>' args.orderCol.toList args.pkCol.toList after,
      NulFree text) :
    fetchPage db.pool serde args after = .ok
      ⟨((rowsAfter db serde args after).take (pageSize args)).map
          (Database.document args.columns),
        ((rowsAfter db serde args after).take (pageSize args)).getLast?.map
          (rowCursor serde args),
        decide (pageSize args < (rowsAfter db serde args after).length)⟩ := by
  have hbounds := h.limit_bounds
  have hsize := h.pageSize_eq
  have hfetch : (args.effectiveLimit + 1).toNat = pageSize args + 1 := by omega
  have hlimit : 0 ≤ args.effectiveLimit + 1 := by omega
  -- the count query stands and falls with the data query
  have haccepted := (h.accepted_iff after).mpr ⟨hreadable, hafter⟩
  have hcount : db.pool.fetchOne ⟨args.pgSchema, args.table,
      whereClause (pageParts serde args after)⟩ = .ok ((db.relation args.pgSchema args.table).filter
        (db.satisfies (whereClause (pageParts serde args after)))).length :=
    Database.fetchOne_eq ((h.nulFree_countSql _).mpr ((h.nulFree_dataSql _).mp haccepted.1))
  have hrows : db.pool.fetchAll ⟨args.pgSchema, args.table, args.columns,
      whereClause (pageParts serde args after), args.orderCol, args.pkCol, args.dir,
      args.effectiveLimit + 1⟩ =
      .ok (((rowsAfter db serde args after).take (pageSize args + 1)).map
        (Database.document args.columns)) := by
    rw [← hfetch]
    exact Database.fetchAll_eq haccepted hlimit
  have hitems : (((rowsAfter db serde args after).take (pageSize args + 1)).map
      (Database.document args.columns)).take (pageSize args) =
      ((rowsAfter db serde args after).take (pageSize args)).map
        (Database.document args.columns) := by
    rw [← List.map_take, List.take_take, Nat.min_eq_left (Nat.le_succ _)]
  -- one row more than the page was asked for
  have hmore : (args.effectiveLimit < (((rowsAfter db serde args after).take
      (pageSize args + 1)).map (Database.document args.columns)).length) ↔
      pageSize args < (rowsAfter db serde args after).length := by
    rw [List.length_map, List.length_take]
    omega
  have hnext : (((rowsAfter db serde args after).take (pageSize args)).map
      (Database.document args.columns)).getLast?.bind
        (itemCursor serde args.pkCol args.orderCol) =
      ((rowsAfter db serde args after).take (pageSize args)).getLast?.map
        (rowCursor serde args) := by
    rw [List.getLast?_map]
    cases hlast : ((rowsAfter db serde args after).take (pageSize args)).getLast? with
    | none => rfl
    | some row =>
      have hmem := List.mem_of_mem_take (List.mem_of_getLast? hlast)
      exact itemCursor_document h (mem_of_mem_rowsAfter hmem)
  have hpage : fetchPage db.pool serde args after = .ok
      ⟨(((rowsAfter db serde args after).take (pageSize args + 1)).map
          (Database.document args.columns)).take (pageSize args),
        ((((rowsAfter db serde args after).take (pageSize args + 1)).map
          (Database.document args.columns)).take (pageSize args)).getLast?.bind
            (itemCursor serde args.pkCol args.orderCol),
        decide (args.effectiveLimit < (((rowsAfter db serde args after).take
          (pageSize args + 1)).map (Database.document args.columns)).length)⟩ := by
    unfold fetchPage resolveList
    dsimp only
    rw [pageParts_eq, hcount, hrows]
    rfl
  rw [hpage, hitems, hnext, decide_eq_decide.mpr hmore]

theorem readable_of_fetchPage (h : Listable db serde args) {page : Keyset.Page (List Char) Json}
    (hpage : fetchPage db.pool serde args none = .ok page) : Readable args := by
  by_contra hnot
  have hrefused : ¬DataQuery.Accepted ⟨args.pgSchema, args.table, args.columns,
      whereClause (pageParts serde args none), args.orderCol, args.pkCol, args.dir,
      args.effectiveLimit + 1⟩ := fun haccepted => hnot ((h.accepted_iff none).mp haccepted).1
  have hrows : db.pool.fetchAll ⟨args.pgSchema, args.table, args.columns,
      whereClause (pageParts serde args none), args.orderCol, args.pkCol, args.dir,
      args.effectiveLimit + 1⟩ = .error db.refused := Database.fetchAll_refused hrefused
  unfold fetchPage resolveList at hpage
  dsimp only at hpage
  rw [pageParts_eq, hrows] at hpage
  cases hcount : db.pool.fetchOne ⟨args.pgSchema, args.table,
      whereClause (pageParts serde args none)⟩ with
  | error e =>
    rw [hcount] at hpage
    cases hpage
  | ok total =>
    rw [hcount] at hpage
    cases hpage

theorem rowsAfter_none (db : Database K) (serde : Serde) (args : ListArgs) :
    rowsAfter db serde args none =
      db.sorted args.dir args.orderCol args.pkCol (matching db args) := by
  have hparts : cursorParts serde.fromStr '>' args.orderCol.toList args.pkCol.toList none = [] := rfl
  unfold rowsAfter
  rw [hparts, List.append_nil]
  rfl

/-- Behind the cursor of a row are the rows that are greater, whatever the direction is. -/
theorem rowsAfter_cursor (h : Listable db serde args) {last : DbRow}
    (hlast : last ∈ db.relation args.pgSchema args.table) :
    rowsAfter db serde args (some (rowCursor serde args last)) =
      db.sorted args.dir args.orderCol args.pkCol ((matching db args).filter fun row =>
        decide (rowPlace db args last < rowPlace db args row)) := by
  obtain ⟨hcondition, htruth⟩ := truth_cursorCondition h hlast
  unfold rowsAfter matching
  rw [cursorParts_rowCursor h hlast, List.filter_filter]
  congr 1
  apply List.filter_congr
  intro row _
  rw [satisfies_filterParts_append db h.filterConditions row (by simpa using hcondition),
    List.all_cons, List.all_nil, Bool.and_true, htruth, Bool.and_comm]

/-- One row stands before another in the direction of the query. -/
def Precedes (db : Database K) (args : ListArgs) (a b : DbRow) : Prop :=
  match args.dir with
  | .ASC => rowPlace db args a < rowPlace db args b
  | .DESC => rowPlace db args b < rowPlace db args a

/-- The client comes to an end, and its items are the rows that meet the filter, each once and in
the order of the query. -/
def Enumerates (db : Database K) (serde : Serde) (args : ListArgs) : Prop :=
  ∃ rows : List DbRow, rows.Perm (matching db args) ∧ rows.Pairwise (Precedes db args) ∧
    Keyset.Ends (fetchPage db.pool serde args) none (rows.map (Database.document args.columns))

theorem nodup_rank (h : Listable db serde args) :
    ((matching db args).map fun row => db.rank args.pkCol (row args.pkCol)).Nodup :=
  h.key_unique.sublist (List.filter_sublist.map _)

theorem nodup_rowPlace (h : Listable db serde args) :
    ((matching db args).map (rowPlace db args)).Nodup := by
  apply List.Nodup.of_map fun place : K ×ₗ K => (ofLex place).2
  rw [List.map_map]
  exact nodup_rank h

/-- The cursor is behind these rows: none at the beginning, that of the last row later on. -/
def EndsAt (serde : Serde) (args : ListArgs) (pre : List DbRow) (cursor : Option (List Char)) :
    Prop :=
  cursor = none ∧ pre = [] ∨
    ∃ init last, pre = init ++ [last] ∧ cursor = some (rowCursor serde args last)

theorem rowsAfter_eq (h : Listable db serde args) (hdir : args.dir = .ASC) {pre post : List DbRow}
    (hrows : Keyset.ordered (rowPlace db args) (matching db args) = pre ++ post)
    {cursor : Option (List Char)} (hcursor : EndsAt serde args pre cursor) :
    rowsAfter db serde args cursor = post := by
  have hnodup := nodup_rowPlace h
  rcases hcursor with ⟨rfl, rfl⟩ | ⟨init, last, rfl, rfl⟩
  · rw [rowsAfter_none, hdir]
    exact hrows
  · -- the rows greater than the last one that was read are the rest of the sorted list
    have hmem : last ∈ Keyset.ordered (rowPlace db args) (matching db args) := by
      rw [hrows]
      simp
    have hlast := (List.mem_filter.mp ((Keyset.perm_ordered _ _).mem_iff.mp hmem)).1
    have hpair := Keyset.pairwise_ordered hnodup
    rw [rowsAfter_cursor h hlast, hdir]
    show Keyset.ordered (rowPlace db args) _ = post
    rw [Keyset.ordered_filter hnodup]
    rw [hrows, List.append_assoc, List.singleton_append] at hpair ⊢
    exact Keyset.filter_after hpair

theorem EndsAt.nulFree (h : Listable db serde args) {pre post : List DbRow}
    (hrows : Keyset.ordered (rowPlace db args) (matching db args) = pre ++ post)
    {cursor : Option (List Char)} (hcursor : EndsAt serde args pre cursor) :
    ∀ text ∈ cursorParts serde.fromStr '>' args.orderCol.toList args.pkCol.toList cursor,
      NulFree text := by
  rcases hcursor with ⟨rfl, -⟩ | ⟨init, last, rfl, rfl⟩
  · exact List.forall_mem_nil _
  · have hmem : last ∈ Keyset.ordered (rowPlace db args) (matching db args) := by
      rw [hrows]
      simp
    exact nulFree_rowCursor h
      (List.mem_filter.mp ((Keyset.perm_ordered _ _).mem_iff.mp hmem)).1

/-- What remains to be read behind a cursor. -/
def Remains (db : Database K) (serde : Serde) (args : ListArgs) (cursor : Option (List Char))
    (items : List Json) : Prop :=
  ∃ pre post, Keyset.ordered (rowPlace db args) (matching db args) = pre ++ post ∧
    items = post.map (Database.document args.columns) ∧ EndsAt serde args pre cursor

theorem enumerates_of_readable (h : Listable db serde args) (hreadable : Readable args)
    (hdir : args.dir = .ASC) : Enumerates db serde args := by
  have hserves : ∀ cursor items, Remains db serde args cursor items →
      ∃ page, fetchPage db.pool serde args cursor = .ok page ∧
        page.items = items.take (pageSize args) ∧
        page.more = decide (pageSize args < items.length) ∧
        (pageSize args < items.length →
          Remains db serde args page.next (items.drop (pageSize args))) := by
    rintro cursor items ⟨pre, post, hrows, rfl, hcursor⟩
    have hfetch := fetchPage_eq h hreadable (hcursor.nulFree h hrows)
    rw [rowsAfter_eq h hdir hrows hcursor] at hfetch
    refine ⟨_, hfetch, List.map_take, by rw [List.length_map], fun hmore => ?_⟩
    rw [List.length_map] at hmore
    have hpositive := h.pageSize_pos
    -- the page is not empty, and its last row is the last one that has been read
    have hne : post.take (pageSize args) ≠ [] := by
      apply List.ne_nil_of_length_pos
      rw [List.length_take]
      omega
    refine ⟨pre ++ post.take (pageSize args), post.drop (pageSize args), ?_, List.map_drop.symm,
      .inr ⟨pre ++ (post.take (pageSize args)).dropLast, (post.take (pageSize args)).getLast hne,
        ?_, ?_⟩⟩
    · rw [hrows, List.append_assoc, List.take_append_drop]
    · rw [List.append_assoc, List.dropLast_append_getLast]
    · rw [List.getLast?_eq_some_getLast hne]
      rfl
  have hpair := Keyset.pairwise_ordered (nodup_rowPlace h)
  refine ⟨Keyset.ordered (rowPlace db args) (matching db args), Keyset.perm_ordered _ _, ?_, ?_⟩
  · unfold Precedes
    rw [hdir]
    exact hpair
  · exact Keyset.ends_of_remains h.pageSize_pos hserves ⟨[], _, rfl, rfl, .inl ⟨rfl, rfl⟩⟩

theorem Enumerates.readable (h : Listable db serde args) (henumerates : Enumerates db serde args) :
    Readable args := by
  obtain ⟨rows, -, -, hends⟩ := henumerates
  obtain ⟨page, hpage⟩ := hends.first
  exact readable_of_fetchPage h hpage

/-- The rows that meet the filter, the greatest first. -/
def descending (db : Database K) (args : ListArgs) : List DbRow :=
  Keyset.ordered (OrderDual.toDual ∘ rowPlace db args) (matching db args)

theorem nodup_toDual (h : Listable db serde args) :
    ((matching db args).map (OrderDual.toDual ∘ rowPlace db args)).Nodup := by
  rw [← List.map_map]
  exact (nodup_rowPlace h).map OrderDual.toDual.injective

theorem pairwise_descending (h : Listable db serde args) :
    (descending db args).Pairwise fun a b => rowPlace db args b < rowPlace db args a :=
  Keyset.pairwise_ordered (nodup_toDual h)

/-- Behind the last row of a descending page the database finds the rows that stand before it. -/
theorem rowsAfter_descending (h : Listable db serde args) (hdir : args.dir = .DESC)
    {init rest : List DbRow} {last : DbRow} (hrows : descending db args = init ++ last :: rest) :
    rowsAfter db serde args (some (rowCursor serde args last)) = init := by
  have hmem : last ∈ descending db args := by
    rw [hrows]
    simp
  have hlast := (List.mem_filter.mp ((Keyset.perm_ordered _ _).mem_iff.mp hmem)).1
  have hnodup := nodup_toDual h
  have hpair := Keyset.pairwise_ordered hnodup
  rw [rowsAfter_cursor h hlast, hdir]
  show Keyset.ordered (OrderDual.toDual ∘ rowPlace db args) _ = init
  rw [Keyset.ordered_filter hnodup]
  have hrows' : Keyset.ordered (OrderDual.toDual ∘ rowPlace db args) (matching db args) =
      init ++ last :: rest := hrows
  rw [hrows'] at hpair ⊢
  exact Keyset.filter_before hpair

/-- Rows that do not fit on the first page are never read: the second page, the last one, repeats
the first one without its last row. -/
theorem ends_descending (h : Listable db serde args) (hreadable : Readable args)
    (hdir : args.dir = .DESC)
    (hlong : pageSize args < (matching db args).length) :
    ∃ init last, init.length + 1 = pageSize args ∧
      Keyset.Ends (fetchPage db.pool serde args) none
        ((init ++ [last]).map (Database.document args.columns) ++
          init.map (Database.document args.columns)) := by
  have hlength : (descending db args).length = (matching db args).length :=
    Keyset.length_ordered _ _
  have hpositive := h.pageSize_pos
  have hne : (descending db args).take (pageSize args) ≠ [] := by
    apply List.ne_nil_of_length_pos
    rw [List.length_take]
    omega
  obtain ⟨init, last, hpage⟩ : ∃ init last,
      (descending db args).take (pageSize args) = init ++ [last] :=
    ⟨_, _, (List.dropLast_append_getLast hne).symm⟩
  have hsize : init.length + 1 = pageSize args := by
    have hcount := congrArg List.length hpage
    rw [List.length_take, List.length_append, List.length_singleton] at hcount
    omega
  have hrows : descending db args = init ++ last :: (descending db args).drop (pageSize args) := by
    have hsplit := List.take_append_drop (pageSize args) (descending db args)
    rw [hpage, List.append_assoc] at hsplit
    exact hsplit.symm
  have hnone : rowsAfter db serde args none = descending db args := by
    rw [rowsAfter_none, hdir]
    rfl
  have hlast : last ∈ db.relation args.pgSchema args.table := by
    have hmem : last ∈ descending db args := by
      rw [hrows]
      simp
    exact (List.mem_filter.mp ((Keyset.perm_ordered _ _).mem_iff.mp hmem)).1
  have hnocursor : ∀ text ∈ cursorParts serde.fromStr '>' args.orderCol.toList args.pkCol.toList
      none, NulFree text := List.forall_mem_nil _
  have hfirst := fetchPage_eq h hreadable hnocursor
  rw [hnone, hpage] at hfirst
  -- behind the last row of the first page the database finds the rows before it
  have hsecond := fetchPage_eq h hreadable (nulFree_rowCursor h hlast)
  rw [rowsAfter_descending h hdir hrows, List.take_of_length_le (by omega)] at hsecond
  -- these are fewer than a page
  have hend := Keyset.ends_last hsecond (decide_eq_false (by omega))
  refine ⟨init, last, hsize, ?_⟩
  apply Keyset.ends_next hfirst (decide_eq_true (by omega))
  rw [List.getLast?_concat]
  exact hend

theorem nodup_documents (h : Listable db serde args) {rows : List DbRow}
    (hrows : rows.Perm (matching db args)) :
    (rows.map (Database.document args.columns)).Nodup := by
  apply List.Nodup.of_map fun item => db.rank args.pkCol ((item.get args.pkCol).getD .null)
  rw [List.map_map]
  have hkeys : ((fun item : Json => db.rank args.pkCol ((item.get args.pkCol).getD .null)) ∘
      Database.document args.columns) = fun row => db.rank args.pkCol (row args.pkCol) := by
    funext row
    show db.rank args.pkCol (((Database.document args.columns row).get args.pkCol).getD .null) = _
    rw [get_document h.pkCol_mem]
    rfl
  rw [hkeys]
  exact (hrows.map _).nodup_iff.mpr (nodup_rank h)

theorem not_enumerates_of_long (h : Listable db serde args) (hdir : args.dir = .DESC)
    (hlong : args.effectiveLimit < ((matching db args).length : ℤ)) :
    ¬Enumerates db serde args := by
  intro henumerates
  have hreadable := henumerates.readable h
  obtain ⟨rows, hperm, -, hends⟩ := henumerates
  have hsize := h.pageSize_eq
  obtain ⟨init, last, hinit, hends'⟩ := ends_descending h hreadable hdir (by omega)
  have hitems := hends.unique hends'
  cases init with
  | nil =>
    -- pages of one row: the second page is empty, and only one row has been read
    have hcount := congrArg List.length hitems
    rw [List.length_map, hperm.length_eq] at hcount
    simp only [List.length_nil, Nat.zero_add] at hinit
    simp at hcount
    omega
  | cons first init =>
    -- the first row is read twice, but the documents of the rows are distinct
    have hnodup := nodup_documents h hperm
    rw [hitems] at hnodup
    have hdisjoint := (List.nodup_append.mp hnodup).2.2
    exact hdisjoint _ (List.mem_map_of_mem List.mem_cons_self) _
      (List.mem_map_of_mem List.mem_cons_self) rfl

theorem enumerates_of_short (h : Listable db serde args) (hreadable : Readable args)
    (hdir : args.dir = .DESC)
    (hshort : ((matching db args).length : ℤ) ≤ args.effectiveLimit) :
    Enumerates db serde args := by
  have hsize := h.pageSize_eq
  have hnone : rowsAfter db serde args none = descending db args := by
    rw [rowsAfter_none, hdir]
    rfl
  have hlength : (descending db args).length = (matching db args).length :=
    Keyset.length_ordered _ _
  have hnocursor : ∀ text ∈ cursorParts serde.fromStr '>' args.orderCol.toList args.pkCol.toList
      none, NulFree text := List.forall_mem_nil _
  have hfetch := fetchPage_eq h hreadable hnocursor
  rw [hnone, List.take_of_length_le (by omega)] at hfetch
  refine ⟨descending db args, Keyset.perm_ordered _ _, ?_, ?_⟩
  · unfold Precedes
    rw [hdir]
    exact pairwise_descending h
  · exact Keyset.ends_last hfetch (decide_eq_false (by omega))

end Page

section Transfers

/-- Two of the transfers are of one block. -/
def transfers : List (String × ℤ) := [("a", 2), ("b", 1), ("c", 1), ("d", 9)]

def transferRow (transfer : String × ℤ) : DbRow := fun c =>
  if c = "id" then .string transfer.1
  else if c = "block_number" then .number (toString transfer.2)
  else .null

/-- Strings of one character and numbers of one digit in their order. -/
def charRank : Json → ℕ
  | .string s => (s.toList.map Char.toNat).sum
  | .number text => (text.toList.map Char.toNat).sum
  | _ => 0

def transferDb : Database ℕ where
  relation _ _ := transfers.map transferRow
  rank _ v := charRank v
  atom ts row :=
    match ts with
    | [.quoted c, .symbol '<', .symbol '=', .number text] =>
      decide (charRank (row (String.ofList c)) ≤ charRank (.number (String.ofList text)))
    | _ => false
  other _ _ := false
  refused := "could not identify an ordering operator for type json"
  negativeLimit := "LIMIT must not be negative"

/-- `where: { block_number: { lte: 5 } }`, ordered by the block number. -/
def transferArgs (dir : OrderDirection) (limit : ℤ) : ListArgs where
  pgSchema := "public"
  table := "transfers"
  pkCol := "id"
  columns := ["id", "block_number"]
  filter := some (.object [.mk "block_number" (.object [.mk "lte" (.number "5")])])
  orderBy := some "block_number"
  orderDirection := some dir
  limit := some limit

/-- The cursor of a transfer. -/
def transferCursor (transfer : String × ℤ) : CursorData :=
  ⟨transfer.1.toList, "block_number".toList, .number (toString transfer.2)⟩

/-- A cursor without characters to escape, as JSON. -/
def plainText (c : CursorData) : Option (List Char) :=
  match c.orderVal with
  | .number text => some ("\x7b\"pk_value\":\"".toList ++ c.pkValue ++
      "\",\"order_col\":\"".toList ++ c.orderCol ++ "\",\"order_val\":".toList ++ text.toList ++
      "\x7d".toList)
  | _ => none

def transferSerde : Serde where
  toStr := plainText
  fromStr text := (transfers.find? fun transfer =>
    plainText (transferCursor transfer) = some text).map transferCursor

theorem listable_transfers (dir : OrderDirection) {limit : ℤ} (hlimit : 1 ≤ limit) :
    Listable transferDb transferSerde (transferArgs dir limit) where
  pkCol_mem := List.mem_cons_self
  orderCol_mem := List.mem_cons_of_mem "id" List.mem_cons_self
  quotable := by
    show ∀ c ∈ ["id", "block_number"], '"' ∉ c.toList
    decide
  names := by
    show ∀ name ∈ ["public", "transfers", "id", "block_number"], NulFree name.toList
    decide
  filter_fields := by
    rintro f hf fields rfl field value hfield
    obtain ⟨rfl⟩ := Option.some.inj hf
    obtain ⟨rfl, rfl⟩ := List.mem_singleton.mp hfield
    refine ⟨List.mem_cons_of_mem "id" List.mem_cons_self, fun ops hops op operand hop => ?_⟩
    obtain ⟨rfl⟩ := hops
    obtain ⟨rfl, rfl⟩ := List.mem_singleton.mp hop
    exact isJsonNumber_toString 5
  key_text := by
    intro row hrow
    obtain ⟨transfer, htransfer, rfl⟩ := List.mem_map.mp hrow
    have htexts : ∀ transfer ∈ transfers, '\'' ∉ transfer.1.toList ∧ NulFree transfer.1.toList := by
      decide
    exact ⟨transfer.1, rfl, htexts transfer htransfer⟩
  key_unique := by
    show ((transfers.map transferRow).map fun row => charRank (row "id")).Nodup
    decide +kernel
  order_value := by
    intro row hrow
    obtain ⟨transfer, htransfer, rfl⟩ := List.mem_map.mp hrow
    have hbounds : ∀ transfer ∈ transfers, -2 ^ 63 ≤ transfer.2 ∧ transfer.2 < 2 ^ 63 := by decide
    obtain ⟨hlow, hhigh⟩ := hbounds transfer htransfer
    exact ⟨.inr (.inr ⟨transfer.2, hlow, hhigh, rfl⟩), nofun⟩
  roundTrip := by
    intro row hrow
    obtain ⟨transfer, htransfer, rfl⟩ := List.mem_map.mp hrow
    have hfind : ∀ transfer ∈ transfers, ((transfers.find? fun other =>
        plainText (transferCursor other) = plainText (transferCursor transfer)) =
          some transfer) := by decide +kernel
    refine ⟨_, rfl, ?_⟩
    exact congrArg (Option.map transferCursor) (hfind transfer htransfer)
  limit_pos := by
    intro n hn
    rw [← Option.some.inj hn]
    exact hlimit

theorem readable_transfers (dir : OrderDirection) (limit : ℤ) :
    Readable (transferArgs dir limit) := by
  -- none of this depends on the direction and the limit
  have h : Readable (transferArgs .ASC 1) := by decide +kernel
  exact ⟨h.1, h.2.1, h.2.2.1, h.2.2.2⟩

end Transfers

section Notes

/-- A note with a document of its own. -/
def noteRow : DbRow := fun c => if c = "id" then .string "a" else .number "7"

def noteDb : Database ℕ where
  relation _ _ := [noteRow]
  rank _ v := charRank v
  atom _ _ := false
  other _ _ := false
  refused := "could not identify an ordering operator for type json"
  negativeLimit := "LIMIT must not be negative"

def noteArgs : ListArgs where
  pgSchema := "public"
  table := "notes"
  pkCol := "id"
  columns := ["id", "doc"]
  filter := none
  orderBy := some "doc"
  orderDirection := none
  limit := none

def noteCursor : CursorData := ⟨"a".toList, "doc".toList, .number "7"⟩

def noteSerde : Serde where
  toStr := plainText
  fromStr text := if plainText noteCursor = some text then some noteCursor else none

theorem listable_notes : Listable noteDb noteSerde noteArgs where
  pkCol_mem := List.mem_cons_self
  orderCol_mem := List.mem_cons_of_mem "id" List.mem_cons_self
  quotable := by
    show ∀ c ∈ ["id", "doc"], '"' ∉ c.toList
    decide
  names := by
    show ∀ name ∈ ["public", "notes", "id", "doc"], NulFree name.toList
    decide
  filter_fields := by
    intro f hf
    cases hf
  key_text := by
    intro row hrow
    rw [List.mem_singleton.mp hrow]
    exact ⟨"a", rfl, by decide, by decide⟩
  key_unique := List.nodup_singleton _
  order_value := by
    intro row hrow
    rw [List.mem_singleton.mp hrow]
    exact ⟨.inr (.inr ⟨7, by decide, by decide, rfl⟩), nofun⟩
  roundTrip := by
    intro row hrow
    rw [List.mem_singleton.mp hrow]
    refine ⟨(plainText noteCursor).getD [], rfl, ?_⟩
    show (if plainText noteCursor = plainText noteCursor then some noteCursor else none) = _
    rw [if_pos rfl]
    rfl
  limit_pos := by
    intro n hn
    cases hn

end Notes

end Resolver

end ForgeIndex
