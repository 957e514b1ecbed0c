import ForgeIndex.Api.Graphql.Pagination
import ForgeIndex.Lib.SqlCondition

/-!
# The cursor conditions of a list query

`forge-index-api/src/graphql/resolver.rs`: `value_to_sql` and the conditions that `resolve_list`
makes of `after` and `before`.  A string of the cursor is escaped in one place and copied as it is
in the other.
-/

namespace ForgeIndex

open Text SqlLexer

namespace Resolver

def valueToSql : Json → List Char
  | .string s => '\'' :: replaceAll ['\''] ['\'', '\''] s.toList ++ ['\'']
  | .number text => text.toList
  | .bool b => (if b then "true" else "false").toList
  | _ => "NULL".toList

/-- The condition that a decoded cursor adds. -/
def cursorCondition (op : Char) (orderCol pkCol : List Char) (c : CursorData) : List Char :=
  '(' :: '"' :: (orderCol ++ '"' :: ',' :: ' ' :: '"' :: (pkCol ++ '"' :: ')' :: ' ' :: op :: ' ' ::
    '(' :: (valueToSql c.orderVal ++ ',' :: ' ' :: '\'' :: (c.pkValue ++ ['\'', ')']))))

/-- What `after` (with `>`) or `before` (with `<`) adds to `where_parts`. -/
def cursorParts (fromStr : List Char → Option CursorData) (op : Char) (orderCol pkCol : List Char)
    (cursor : Option (List Char)) : List (List Char) :=
  match cursor with
  | none => []
  | some cursor =>
    match Pagination.decodeCursor fromStr cursor with
    | .error _ => []
    | .ok c => [cursorCondition op orderCol pkCol c]

/-- The tokens of a number; a sign is a token of its own. -/
def numberTokens : List Char → List Token
  | '-' :: text => [.symbol '-', .number text]
  | text => [.number text]

/-- The constant that stands for a value of a cursor, a number with its sign. -/
def constantOf : Json → Option (List Token)
  | .string s => some [.string s.toList]
  | .number text => some (numberTokens text.toList)
  | .bool b => some [.word (if b then "true" else "false").toList]
  | .null => some [.word "NULL".toList]
  | _ => none

/-- The text is a SQL text, and it lexes as the row comparison of the two columns with two constants,
those of the order value and of the key. -/
def IsComparison (op : Char) (orderCol pkCol : List Char) (c : CursorData) (text : List Char) :
    Prop :=
  NulFree text ∧ ∃ constant, constantOf c.orderVal = some constant ∧
    lex text = .symbol '(' :: .quoted orderCol :: .symbol ',' :: .quoted pkCol :: .symbol ')' ::
      .symbol op :: .symbol '(' :: (constant ++ [.symbol ',', .string c.pkValue, .symbol ')'])

/-- A number as JSON writes it. -/
def IsJsonNumber (text : List Char) : Prop :=
  ∃ sign d int frac exp, text = sign ++ d :: int ++ frac ++ exp ∧
    (sign = [] ∨ sign = ['-']) ∧ (∀ c ∈ d :: int, c.isDigit = true) ∧
    (frac = [] ∨ ∃ ds, frac = '.' :: ds ∧ ∀ c ∈ ds, c.isDigit = true) ∧
    (exp = [] ∨ ∃ e s ds, exp = e :: s ++ ds ∧ (e = 'e' ∨ e = 'E') ∧
      (s = [] ∨ s = ['+'] ∨ s = ['-']) ∧ ∀ c ∈ ds, c.isDigit = true)

section Fields

theorem lex_raw_iff {quote : Char} (hquote : quote = '\'' ∨ quote = '"') {v rest : List Char}
    (hrest : rest.head? ≠ some quote) {ts : List Token} :
    lex (quote :: (v ++ quote :: rest)) = quoteToken quote v :: ts ↔
      quote ∉ v ∧ lex rest = ts := by
  rw [lex_quote hquote]
  constructor
  · intro h
    have hv : quote ∉ v := by
      apply (readQuoted_raw_iff hrest).mp
      cases hread : readQuoted quote false (v ++ quote :: rest) with
      | none =>
        rw [hread] at h
        cases h
      | some p =>
        rw [hread] at h
        have htoken := (List.cons.inj h).1
        refine ⟨p.2, ?_⟩
        congr 1
        unfold quoteToken at htoken
        split_ifs at htoken
        · rw [← Token.string.inj htoken]
        · rw [← Token.quoted.inj htoken]
    refine ⟨hv, ?_⟩
    have hread := readQuoted_doubled (v := v) hrest
    rw [doubled_of_not_mem hv] at hread
    rw [hread] at h
    exact (List.cons.inj h).2
  · rintro ⟨hv, rfl⟩
    have hread := readQuoted_doubled (v := v) hrest
    rw [doubled_of_not_mem hv] at hread
    rw [hread]

theorem replaceAll_quote (s : List Char) : replaceAll ['\''] ['\'', '\''] s = doubled '\'' s := by
  unfold replaceAll
  induction s with
  | nil => rfl
  | cons c s ih =>
    unfold replaceFrom
    by_cases hc : c = '\''
    · subst hc
      rw [doubled_cons_self, ← ih]
      rfl
    · rw [doubled_cons_ne hc, ← ih, if_neg]
      simpa using Ne.symm hc

theorem numberTokens_of_head {text : List Char} (h : text.head? ≠ some '-') :
    numberTokens text = [.number text] := by
  unfold numberTokens
  split
  · exact absurd rfl h
  · rfl

theorem reads_number {text : List Char} (h : IsJsonNumber text) :
    Lexes text (numberTokens text) := by
  obtain ⟨sign, d, int, frac, exp, rfl, hsign, hint, hfrac, hexp⟩ := h
  have hd := hint d List.mem_cons_self
  have hne : d ≠ '-' := by
    rintro rfl
    cases hd
  have hread := reads_unsigned hint hfrac hexp
  have htext : sign ++ d :: int ++ frac ++ exp = sign ++ d :: (int ++ frac ++ exp) := by simp
  rw [htext]
  rcases hsign with rfl | rfl
  · rw [List.nil_append, numberTokens_of_head (by simpa using hne)]
    exact hread
  · intro rest hrest
    exact (lex_minus hne _).trans (congrArg _ (hread rest hrest))

theorem nulFree_number {text : List Char} (h : IsJsonNumber text) : NulFree text := by
  obtain ⟨sign, d, int, frac, exp, rfl, hsign, hint, hfrac, hexp⟩ := h
  have hsign' : NulFree sign := by rcases hsign with rfl | rfl <;> decide
  have hfrac' : NulFree frac := by
    rcases hfrac with rfl | ⟨ds, rfl, hds⟩
    · exact nulFree_nil
    · exact nulFree_cons.mpr ⟨by decide, nulFree_digits hds⟩
  have hexp' : NulFree exp := by
    rcases hexp with rfl | ⟨e, s, ds, rfl, he, hs, hds⟩
    · exact nulFree_nil
    · have hletter : e ≠ Char.ofNat 0 := by rcases he with rfl | rfl <;> decide
      have hs' : NulFree s := by rcases hs with rfl | rfl | rfl <;> decide
      simp only [nulFree_cons, nulFree_append]
      exact ⟨⟨hletter, hs'⟩, nulFree_digits hds⟩
  simp only [nulFree_append]
  exact ⟨⟨⟨hsign', nulFree_digits hint⟩, hfrac'⟩, hexp'⟩

/-- The order value is written as one constant: it is no array and no object, and no string with
U+0000. -/
def IsConstant : Json → Prop
  | .string s => NulFree s.toList
  | .array _ => False
  | .object _ => False
  | _ => True

/-- The tokens of a value. -/
def valueTokens : Json → List Token
  | .string s => [.string s.toList]
  | .number text => numberTokens text.toList
  | .bool b => [.word (if b then "true" else "false").toList]
  | _ => [.word "NULL".toList]

theorem reads_valueToSql {v : Json}
    (hnumber : ∀ text, v = .number text → IsJsonNumber text.toList) :
    Lexes (valueToSql v) (valueTokens v) := by
  have hnull : Lexes "NULL".toList [.word "NULL".toList] :=
    reads_word (w := "ULL".toList) rfl (by decide)
  cases v with
  | bool b =>
    cases b
    · exact reads_word (w := "alse".toList) rfl (by decide)
    · exact reads_word (w := "rue".toList) rfl (by decide)
  | string s =>
    have hread := reads_string s.toList
    rw [← replaceAll_quote] at hread
    exact hread
  | number text => exact reads_number (hnumber text rfl)
  | null => exact hnull
  | array items => exact hnull
  | object members => exact hnull

theorem nulFree_valueToSql {v : Json}
    (hnumber : ∀ text, v = .number text → IsJsonNumber text.toList) :
    NulFree (valueToSql v) ↔ ∀ s, v = .string s → NulFree s.toList := by
  cases v with
  | string s =>
    have hquote : '\'' ≠ Char.ofNat 0 := by decide
    unfold valueToSql
    dsimp only
    rw [replaceAll_quote]
    simp [nulFree_doubled, hquote]
  | number text => simp [valueToSql, nulFree_number (hnumber text rfl)]
  | bool b =>
    have htext : NulFree (valueToSql (.bool b)) := by cases b <;> decide
    simp [htext]
  | null => simp [valueToSql]
  | array items => simp [valueToSql]
  | object members => simp [valueToSql]

theorem lex_valueToSql_iff {v : Json} {rest : List Char} {ts : List Token}
    (hnumber : ∀ text, v = .number text → IsJsonNumber text.toList) (hrest : Boundary rest) :
    (∃ constant, constantOf v = some constant ∧ lex (valueToSql v ++ rest) = constant ++ ts) ↔
      (constantOf v).isSome ∧ lex rest = ts := by
  rw [reads_valueToSql hnumber rest hrest]
  have htokens {constant : List Token} (h : constantOf v = some constant) :
      constant = valueTokens v := by
    cases v with
    | array items => cases h
    | object members => cases h
    | _ => exact (Option.some.inj h).symm
  constructor
  · intro ⟨constant, hconst, h⟩
    rw [htokens hconst] at h
    exact ⟨by rw [hconst, Option.isSome_some], List.append_cancel_left h⟩
  · intro ⟨hsome, h⟩
    obtain ⟨constant, hconst⟩ := Option.isSome_iff_exists.mp hsome
    exact ⟨constant, hconst, by rw [htokens hconst, h]⟩

theorem isConstant_iff {v : Json} :
    IsConstant v ↔ (constantOf v).isSome ∧ ∀ s, v = .string s → NulFree s.toList := by
  cases v <;> simp [IsConstant, constantOf]

theorem nulFree_cursorCondition {op : Char} (hop : op = '>' ∨ op = '<') {orderCol pkCol : List Char}
    {c : CursorData} (hnumber : ∀ text, c.orderVal = .number text → IsJsonNumber text.toList) :
    NulFree (cursorCondition op orderCol pkCol c) ↔ NulFree orderCol ∧ NulFree pkCol ∧
      (∀ s, c.orderVal = .string s → NulFree s.toList) ∧ NulFree c.pkValue := by
  have hop' : op ≠ Char.ofNat 0 := by rcases hop with rfl | rfl <;> decide
  have hsymbols : NulFree ['(', ')', '"', '\'', ',', ' '] := by decide
  simp only [nulFree_cons] at hsymbols
  rw [← nulFree_valueToSql hnumber]
  unfold cursorCondition
  simp [hop', hsymbols]

end Fields

/-- A cursor that decodes adds one condition.  It is the comparison of the columns with the
constants of the cursor if and only if no quote stands in the key (or in a column name), the order
value is written as one constant, and U+0000 stands nowhere. -/
theorem cursorParts_comparison_iff (fromStr : List Char → Option CursorData) {op : Char}
    (hop : op = '>' ∨ op = '<') (orderCol pkCol : List Char) {cursor : List Char} {c : CursorData}
    (hcursor : Pagination.decodeCursor fromStr cursor = .ok c)
    (hnumber : ∀ text, c.orderVal = .number text → IsJsonNumber text.toList) :
    ∃ condition, cursorParts fromStr op orderCol pkCol (some cursor) = [condition] ∧
      (IsComparison op orderCol pkCol c condition ↔
        ('\'' ∉ c.pkValue ∧ NulFree c.pkValue) ∧ IsConstant c.orderVal ∧
          ('"' ∉ orderCol ∧ NulFree orderCol) ∧ '"' ∉ pkCol ∧ NulFree pkCol) := by
  refine ⟨cursorCondition op orderCol pkCol c, ?_, ?_⟩
  · unfold cursorParts
    dsimp only
    rw [hcursor]
  have hstart : start op = ([.symbol op], .plain) := by rcases hop with rfl | rfl <;> rfl
  have hspace : isSpace ' ' = true := rfl
  unfold IsComparison
  rw [nulFree_cursorCondition hop hnumber, isConstant_iff]
  unfold cursorCondition
  rw [lex_symbol rfl]
  constructor
  · intro ⟨⟨hnulOrder, hnulPk, hnulValue, hnulKey⟩, constant, hconst, h⟩
    -- from the left: a field ends where it should, or a quote in it ends it before
    obtain ⟨horder, h⟩ := (lex_raw_iff (.inr rfl) (by simp)).mp (List.cons.inj h).2
    rw [lex_symbol rfl, lex_space hspace] at h
    obtain ⟨hpk, h⟩ := (lex_raw_iff (.inr rfl) (by simp)).mp (List.cons.inj h).2
    rw [lex_symbol rfl, lex_space hspace, lex_symbol hstart, lex_space hspace,
      lex_symbol rfl] at h
    simp only [List.cons.injEq, true_and] at h
    have hcomma : Boundary (',' :: ' ' :: '\'' :: (c.pkValue ++ ['\'', ')'])) :=
      boundary_cons (.inr (.inl rfl)) _
    obtain ⟨hvalue, h⟩ := (lex_valueToSql_iff hnumber hcomma).mp ⟨constant, hconst, h⟩
    rw [lex_symbol rfl, lex_space hspace] at h
    obtain ⟨hkey, -⟩ := (lex_raw_iff (v := c.pkValue) (.inl rfl) (by simp)).mp (List.cons.inj h).2
    exact ⟨⟨hkey, hnulKey⟩, ⟨hvalue, hnulValue⟩, ⟨horder, hnulOrder⟩, hpk, hnulPk⟩
  · intro ⟨⟨hkey, hnulKey⟩, ⟨hvalue, hnulValue⟩, ⟨horder, hnulOrder⟩, hpk, hnulPk⟩
    have hend : lex ('\'' :: (c.pkValue ++ ['\'', ')'])) = [.string c.pkValue, .symbol ')'] :=
      (lex_raw_iff (.inl rfl) (by simp)).mpr ⟨hkey, rfl⟩
    have hcomma : Boundary (',' :: ' ' :: '\'' :: (c.pkValue ++ ['\'', ')'])) :=
      boundary_cons (.inr (.inl rfl)) _
    obtain ⟨constant, hconst, hlex⟩ := (lex_valueToSql_iff hnumber hcomma).mpr ⟨hvalue, rfl⟩
    refine ⟨⟨hnulOrder, hnulPk, hnulValue, hnulKey⟩, constant, hconst, congrArg _ ?_⟩
    refine (lex_raw_iff (.inr rfl) (by simp)).mpr ⟨horder, ?_⟩
    rw [lex_symbol rfl, lex_space hspace]
    refine congrArg _ ((lex_raw_iff (.inr rfl) (by simp)).mpr ⟨hpk, ?_⟩)
    rw [lex_symbol rfl, lex_space hspace, lex_symbol hstart, lex_space hspace, lex_symbol rfl,
      hlex, lex_symbol rfl, lex_space hspace, hend]

/-- The reader of JSON texts on one text. -/
def readOne (json : String) (c : CursorData) (text : List Char) : Option CursorData :=
  if text = json.toList then some c else none

theorem decodeCursor_readOne {cursor : List Char} {json : String} {c : CursorData}
    (h : Pagination.base64Decode cursor = some json.toList) :
    Pagination.decodeCursor (readOne json c) cursor = .ok c := by
  unfold Pagination.decodeCursor readOne
  rw [h]
  dsimp only
  rw [if_pos rfl]

/-- A cursor for the key `b7` and the order value 42. -/
theorem cursorParts_comparison_iff_plain :
    let json := "\x7b\"pk_value\":\"b7\",\"order_col\":\"id\",\"order_val\":42\x7d"
    let c : CursorData := ⟨"b7".toList, "id".toList, .number "42"⟩
    ∃ condition, cursorParts (readOne json c) '>' "id".toList "key".toList
      (some "eyJwa192YWx1ZSI6ImI3Iiwib3JkZXJfY29sIjoiaWQiLCJvcmRlcl92YWwiOjQyfQ==".toList) =
        [condition] ∧ IsComparison '>' "id".toList "key".toList c condition := by
  intro json c
  have hnumber : ∀ text, c.orderVal = .number text → IsJsonNumber text.toList := by
    intro text h
    cases h
    exact ⟨[], '4', ['2'], [], [], rfl, .inl rfl, List.all_eq_true.mp (by decide), .inl rfl,
      .inl rfl⟩
  have hdecode : Pagination.base64Decode
      "eyJwa192YWx1ZSI6ImI3Iiwib3JkZXJfY29sIjoiaWQiLCJvcmRlcl92YWwiOjQyfQ==".toList =
        some json.toList := by decide +kernel
  have hcursor := decodeCursor_readOne (c := c) hdecode
  obtain ⟨condition, hparts, hiff⟩ := cursorParts_comparison_iff (readOne json c) (.inl rfl)
    "id".toList "key".toList hcursor hnumber
  exact ⟨condition, hparts, hiff.mpr ⟨by decide, trivial, by decide, by decide⟩⟩

/-- The key of this cursor closes its string and the parenthesis and goes on with a condition of
its own. -/
theorem cursorParts_not_comparison :
    let json := "\x7b\"pk_value\":\"x') OR ('1'='1\",\"order_col\":\"id\",\"order_val\":42\x7d"
    let c : CursorData := ⟨"x') OR ('1'='1".toList, "id".toList, .number "42"⟩
    let cursor :=
      "eyJwa192YWx1ZSI6IngnKSBPUiAoJzEnPScxIiwib3JkZXJfY29sIjoiaWQiLCJvcmRlcl92YWwiOjQyfQ=="
    let condition := "(\"id\", \"key\") > (42, 'x') OR ('1'='1')"
    Pagination.decodeCursor (readOne json c) cursor.toList = .ok c ∧
      cursorParts (readOne json c) '>' "id".toList "key".toList (some cursor.toList) =
        [condition.toList] ∧
      Token.word "OR".toList ∈ lex condition.toList ∧
      ¬IsComparison '>' "id".toList "key".toList c condition.toList := by
  intro json c cursor condition
  have hcursor : Pagination.decodeCursor (readOne json c) cursor.toList = .ok c :=
    decodeCursor_readOne (by decide +kernel)
  refine ⟨hcursor, ?_, by decide +kernel, ?_⟩
  · unfold cursorParts
    dsimp only
    rw [hcursor]
    decide +kernel
  · intro ⟨_, constant, hconst, h⟩
    cases hconst
    revert h
    decide +kernel

end Resolver

end ForgeIndex
