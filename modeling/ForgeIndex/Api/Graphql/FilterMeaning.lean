import ForgeIndex.Api.Graphql.Listing

/-!
# What a filter keeps

The conditions of `filters_to_sql` read as SQL, against the operators of the filter.  A condition
that cannot be written is left out of the clause, which is harmless for `notIn` of no values and
keeps every row for `in` of no values.
-/

namespace ForgeIndex

open Text SqlLexer

namespace Filters

/-- The operators that compare with one value. -/
inductive CompareOp where
  | eq | gt | gte | lt | lte
  deriving DecidableEq, Repr

namespace CompareOp

def name : CompareOp → String
  | eq => "eq"
  | gt => "gt"
  | gte => "gte"
  | lt => "lt"
  | lte => "lte"

def sqlOp : CompareOp → String
  | eq => "="
  | gt => ">"
  | gte => ">="
  | lt => "<"
  | lte => "<="

def Holds {K : Type} [LinearOrder K] : CompareOp → K → K → Prop
  | eq, a, b => a = b
  | gt, a, b => b < a
  | gte, a, b => b ≤ a
  | lt, a, b => a < b
  | lte, a, b => a ≤ b

instance {K : Type} [LinearOrder K] (op : CompareOp) (a b : K) : Decidable (op.Holds a b) :=
  match op with
  | eq => inferInstanceAs (Decidable (a = b))
  | gt => inferInstanceAs (Decidable (b < a))
  | gte => inferInstanceAs (Decidable (b ≤ a))
  | lt => inferInstanceAs (Decidable (a < b))
  | lte => inferInstanceAs (Decidable (a ≤ b))

end CompareOp

section Truth

variable {K : Type} [LinearOrder K] (rank : String → Json → K)

/-- A comparison of a column with a constant: unknown where one of them is null. -/
def compareTruth (op : CompareOp) (column : String) (constant : List Token) (row : DbRow) :
    Option Bool :=
  match RowComparison.constantValue constant, row column with
  | none, _ | _, .null => none
  | some v, u => some (decide (op.Holds (rank column u) (rank column v)))

/-- `IN`: an equation with one of the constants. -/
def inTruth (column : String) (constants : List Token) (row : DbRow) : Option Bool :=
  anyTrue ((constants.splitOn (.symbol ',')).map fun c => compareTruth rank .eq column c row)

/-- The truth of a condition of `build_condition`; nothing is known of other tokens. -/
def conditionTruth (row : DbRow) : List Token → Option Bool
  | .quoted column :: .symbol '=' :: v => compareTruth rank .eq (String.ofList column) v row
  | .quoted column :: .symbol '>' :: .symbol '=' :: v =>
    compareTruth rank .gte (String.ofList column) v row
  | .quoted column :: .symbol '>' :: v => compareTruth rank .gt (String.ofList column) v row
  | .quoted column :: .symbol '<' :: .symbol '=' :: v =>
    compareTruth rank .lte (String.ofList column) v row
  | .quoted column :: .symbol '<' :: v => compareTruth rank .lt (String.ofList column) v row
  | .quoted column :: .word w :: .symbol '(' :: vs =>
    if w = "IN".toList ∧ vs.getLast? = some (.symbol ')') then
      inTruth rank (String.ofList column) vs.dropLast row
    else none
  | .quoted column :: .word w :: .word w' :: .symbol '(' :: vs =>
    if w = "NOT".toList ∧ w' = "IN".toList ∧ vs.getLast? = some (.symbol ')') then
      (inTruth rank (String.ofList column) vs.dropLast row).map Bool.not
    else none
  | _ => none

/-- The row is kept by a clause: its conditions are known to be true, and without a clause every row
is kept. -/
def keeps (other : List Token → Bool) (clause : List Char) (row : DbRow) : Bool :=
  clause.isEmpty || holds (fun ts => decide (conditionTruth rank row ts = some true)) other
    (lex clause)

end Truth

/-- A value that is neither null nor a list nor an object. -/
inductive Scalar where
  | string (s : String)
  | number (text : String) (isNumber : Resolver.IsJsonNumber text.toList)
  | bool (b : Bool)

def Scalar.toJson : Scalar → Json
  | string s => .string s
  | number text _ => .number text
  | bool b => .bool b

/-- No string with U+0000. -/
def Scalar.Clean : Scalar → Prop
  | string s => NulFree s.toList
  | _ => True

instance (v : Scalar) : Decidable v.Clean :=
  match v with
  | .string s => inferInstanceAs (Decidable (NulFree s.toList))
  | .number _ _ => inferInstanceAs (Decidable True)
  | .bool _ => inferInstanceAs (Decidable True)

/-- An operator with its operand. -/
inductive Operation where
  | compare (op : CompareOp) (v : Scalar)
  | isIn (vs : List Scalar)
  | notIn (vs : List Scalar)

namespace Operation

def name : Operation → String
  | compare op _ => op.name
  | isIn _ => "in"
  | notIn _ => "notIn"

def operand : Operation → Json
  | compare _ v => v.toJson
  | isIn vs | notIn vs => .array (vs.map Scalar.toJson)

/-- The values of the operand. -/
def scalars : Operation → List Scalar
  | compare _ v => [v]
  | isIn vs | notIn vs => vs

/-- The operator holds of a value of the column. -/
def Holds {K : Type} [LinearOrder K] (rank : String → Json → K) (column : String) (u : Json) :
    Operation → Prop
  | compare op v => op.Holds (rank column u) (rank column v.toJson)
  | isIn vs => ∃ v ∈ vs, rank column u = rank column v.toJson
  | notIn vs => ∀ v ∈ vs, rank column u ≠ rank column v.toJson

/-- `in` or `notIn` of no values. -/
def IsEmptyList : Operation → Prop
  | isIn vs | notIn vs => vs = []
  | _ => False

/-- `in` of no values. -/
def IsEmptyIn : Operation → Prop
  | isIn vs => vs = []
  | _ => False

end Operation

instance (op : Operation) : Decidable op.IsEmptyIn :=
  match op with
  | .isIn vs => decidable_of_iff (vs.isEmpty = true) List.isEmpty_iff
  | .compare _ _ => inferInstanceAs (Decidable False)
  | .notIn _ => inferInstanceAs (Decidable False)

instance {K : Type} [LinearOrder K] (rank : String → Json → K) (column : String) (u : Json)
    (op : Operation) : Decidable (op.Holds rank column u) :=
  match op with
  | .compare op v => inferInstanceAs (Decidable (op.Holds (rank column u) (rank column v.toJson)))
  | .isIn vs => inferInstanceAs (Decidable (∃ v ∈ vs, rank column u = rank column v.toJson))
  | .notIn vs => inferInstanceAs (Decidable (∀ v ∈ vs, rank column u ≠ rank column v.toJson))

/-- A filter: operators by column. -/
abbrev FilterObject := List (String × List Operation)

/-- The `where` argument. -/
def FilterObject.toJson (filter : FilterObject) : Json :=
  .object (filter.map fun p => .mk p.1 (.object (p.2.map fun op => .mk op.name op.operand)))

section Operator

variable {K : Type} [LinearOrder K] {rank : String → Json → K} {row : DbRow}

theorem Scalar.shows (v : Scalar) : ShowsNumbers v.toJson := by
  cases v with
  | number text isNumber => exact isNumber
  | string s => trivial
  | bool b => trivial

theorem Scalar.literal (v : Scalar) : ∃ text, valueToSqlLiteral v.toJson = some text := by
  cases v <;> exact ⟨_, rfl⟩

theorem Scalar.constantValue (v : Scalar) :
    RowComparison.constantValue (Resolver.valueTokens v.toJson) = some v.toJson := by
  cases v with
  | string s => exact RowComparison.constantValue_string s
  | number text _ => exact RowComparison.constantValue_numberTokens text
  | bool b => exact RowComparison.constantValue_bool b

theorem Scalar.head_tokens (v : Scalar) : ∃ t ts, Resolver.valueTokens v.toJson = t :: ts ∧
    t ≠ .symbol '=' := by
  cases v with
  | string s => exact ⟨_, _, rfl, by simp⟩
  | bool b => exact ⟨_, _, rfl, by simp⟩
  | number text _ =>
    show ∃ t ts, Resolver.numberTokens text.toList = t :: ts ∧ _
    unfold Resolver.numberTokens
    split <;> exact ⟨_, _, rfl, by simp⟩

theorem compareTruth_scalar (op : CompareOp) {column : String} (hrow : row column ≠ .null)
    (v : Scalar) :
    compareTruth rank op column (Resolver.valueTokens v.toJson) row =
      some (decide (op.Holds (rank column (row column)) (rank column v.toJson))) := by
  unfold compareTruth
  rw [v.constantValue]
  cases hu : row column with
  | null => exact absurd hu hrow
  | _ => rfl

theorem conditionTruth_compare (op : CompareOp) (column : String) (v : Scalar) :
    conditionTruth rank row (.quoted column.toList :: (op.sqlOp.toList.map Token.symbol ++
      Resolver.valueTokens v.toJson)) =
        compareTruth rank op column (Resolver.valueTokens v.toJson) row := by
  obtain ⟨t, ts, htokens, hne⟩ := v.head_tokens
  rw [htokens]
  cases op with
  | eq =>
    show compareTruth rank .eq (String.ofList column.toList) (t :: ts) row = _
    rw [String.ofList_toList]
  | gte =>
    show compareTruth rank .gte (String.ofList column.toList) (t :: ts) row = _
    rw [String.ofList_toList]
  | lte =>
    show compareTruth rank .lte (String.ofList column.toList) (t :: ts) row = _
    rw [String.ofList_toList]
  | gt =>
    -- the value does not go on with `=`
    show conditionTruth rank row (.quoted column.toList :: .symbol '>' :: t :: ts) = _
    rw [conditionTruth, String.ofList_toList]
    intro v' hv'
    exact hne (List.cons.inj hv').1
  | lt =>
    show conditionTruth rank row (.quoted column.toList :: .symbol '<' :: t :: ts) = _
    rw [conditionTruth, String.ofList_toList]
    intro v' hv'
    exact hne (List.cons.inj hv').1

/-- The tokens between the parentheses. -/
def listTokens (vs : List Scalar) : List Token :=
  [Token.symbol ','].intercalate (vs.map fun v => Resolver.valueTokens v.toJson)

theorem literals_map (vs : List Scalar) :
    (vs.map Scalar.toJson).filterMap valueToSqlLiteral =
      vs.map fun v => Resolver.valueToSql v.toJson := by
  induction vs with
  | nil => rfl
  | cons v vs ih =>
    obtain ⟨text, htext⟩ := v.literal
    rw [List.map_cons, List.filterMap_cons_some htext, ih, List.map_cons, literal_eq htext]

theorem reads_listTokens (vs : List Scalar) :
    Lexes (", ".toList.intercalate ((vs.map Scalar.toJson).filterMap valueToSqlLiteral))
      (listTokens vs) := by
  have hparts : ∀ p ∈ vs.map fun v => (Resolver.valueToSql v.toJson, Resolver.valueTokens v.toJson),
      Lexes p.1 p.2 := by
    intro p hp
    obtain ⟨v, -, rfl⟩ := List.mem_map.mp hp
    obtain ⟨text, htext⟩ := v.literal
    rw [← literal_eq htext]
    exact reads_literal v.shows htext
  have hread := reads_commas hparts
  rw [List.map_map, List.map_map] at hread
  rw [literals_map]
  exact hread

theorem inTruth_listTokens {column : String} (hrow : row column ≠ .null) {vs : List Scalar}
    (hne : vs ≠ []) :
    inTruth rank column (listTokens vs) row =
      some (vs.any fun v => decide (rank column (row column) = rank column v.toJson)) := by
  have hsplit : (listTokens vs).splitOn (.symbol ',') =
      vs.map fun v => Resolver.valueTokens v.toJson := by
    apply List.splitOn_intercalate
    · intro ts hts hcomma
      obtain ⟨v, -, rfl⟩ := List.mem_map.mp hts
      cases v with
      | string s => simp [Scalar.toJson, Resolver.valueTokens] at hcomma
      | bool b => simp [Scalar.toJson, Resolver.valueTokens] at hcomma
      | number text _ =>
        have hnumber : Token.symbol ',' ∈ Resolver.numberTokens text.toList := hcomma
        unfold Resolver.numberTokens at hnumber
        split at hnumber <;> simp at hnumber
    · simpa using hne
  have heach : ((vs.map fun v => Resolver.valueTokens v.toJson).map fun c =>
      compareTruth rank .eq column c row) =
        vs.map fun v => some (decide (rank column (row column) = rank column v.toJson)) := by
    rw [List.map_map]
    apply List.map_congr_left
    intro v _
    exact compareTruth_scalar .eq hrow v
  unfold inTruth
  rw [hsplit, heach, anyTrue_map_some]

theorem conditionTruth_in (column : String) (ts : List Token) :
    conditionTruth rank row (.quoted column.toList :: .word "IN".toList :: .symbol '(' ::
      (ts ++ [.symbol ')'])) = inTruth rank column ts row := by
  rw [conditionTruth, if_pos ⟨rfl, List.getLast?_concat⟩, List.dropLast_concat, String.ofList_toList]

theorem conditionTruth_notIn (column : String) (ts : List Token) :
    conditionTruth rank row (.quoted column.toList :: .word "NOT".toList :: .word "IN".toList ::
      .symbol '(' :: (ts ++ [.symbol ')'])) = (inTruth rank column ts row).map Bool.not := by
  rw [conditionTruth, if_pos ⟨rfl, rfl, List.getLast?_concat⟩, List.dropLast_concat,
    String.ofList_toList]

theorem buildCondition_compare (op : CompareOp) (column : String) (v : Json) :
    buildCondition column op.name v = compareCondition op.sqlOp column v := by
  cases op <;> rfl

theorem buildCondition_scalar (op : CompareOp) (column : String) (v : Scalar) :
    buildCondition column (Operation.compare op v).name (Operation.compare op v).operand =
      some (quoteName column ++ ' ' :: (op.sqlOp.toList ++ ' ' :: Resolver.valueToSql v.toJson)) := by
  obtain ⟨literal, hliteral⟩ := v.literal
  show buildCondition column op.name v.toJson = _
  rw [buildCondition_compare]
  unfold compareCondition
  rw [hliteral, literal_eq hliteral]
  rfl

theorem sqlOp_symbols (op : CompareOp) :
    ∀ c ∈ op.sqlOp.toList, start c = ([.symbol c], .plain) := by
  cases op <;> exact List.all_iff_forall_prop.mp (by decide)

theorem listCondition_eq (words column : String) {vs : List Scalar} (hne : vs ≠ []) :
    listCondition words column (.array (vs.map Scalar.toJson)) =
      some (quoteName column ++ ' ' :: (words.toList ++ ' ' :: '(' ::
        (", ".toList.intercalate ((vs.map Scalar.toJson).filterMap valueToSqlLiteral) ++ [')']))) := by
  have hsome : ((vs.map Scalar.toJson).filterMap valueToSqlLiteral).isEmpty = false := by
    rw [literals_map, List.isEmpty_eq_false_iff]
    simpa using hne
  unfold listCondition
  dsimp only
  rw [hsome]
  rfl

theorem reads_list {words column : String} {keywords : List Token}
    (hwords : Lexes words.toList keywords) (hcolumn : '"' ∉ column.toList) (vs : List Scalar) :
    Lexes (quoteName column ++ ' ' :: (words.toList ++ ' ' :: '(' ::
      (", ".toList.intercalate ((vs.map Scalar.toJson).filterMap valueToSqlLiteral) ++ [')'])))
        ([.quoted column.toList] ++ (keywords ++ .symbol '(' :: (listTokens vs ++ [.symbol ')']))) :=
  (reads_quoteName hcolumn).space (hwords.space (reads_listTokens vs).parens)

theorem buildCondition_empty {op : Operation} (h : op.IsEmptyList) (column : String) :
    buildCondition column op.name op.operand = none := by
  cases op with
  | compare op v => exact absurd h id
  | isIn vs =>
    cases h
    rfl
  | notIn vs =>
    cases h
    rfl

/-- Any other operator is one condition, and it is true where the operator holds. -/
theorem buildCondition_meaning {op : Operation} (h : ¬op.IsEmptyList) {column : String}
    (rank : String → Json → K) (row : DbRow) (hcolumn : '"' ∉ column.toList) (hrow : row column ≠ .null) :
    ∃ text, buildCondition column op.name op.operand = some text ∧ ReadsCondition text ∧
      (conditionTruth rank row (lex text) = some true ↔ op.Holds rank column (row column)) := by
  have hin : Lexes "IN".toList [.word "IN".toList] := reads_word (w := "N".toList) rfl (by decide)
  have hnot : Lexes "NOT".toList [.word "NOT".toList] :=
    reads_word (w := "OT".toList) rfl (by decide)
  have hnotIn : Lexes "NOT IN".toList [.word "NOT".toList, .word "IN".toList] := hnot.space hin
  have hshows (vs : List Scalar) : ShowsNumbers (.array (vs.map Scalar.toJson)) := by
    intro text htext
    obtain ⟨v, -, hv⟩ := List.mem_map.mp htext
    have hnumber := v.shows
    rw [hv] at hnumber
    exact hnumber
  cases op with
  | compare op v =>
    have hsome := buildCondition_scalar op column v
    have hread := reads_compare (sqlOp_symbols op) hcolumn v.shows
      ((buildCondition_compare op column v.toJson).symm.trans hsome)
    refine ⟨_, hsome, readsCondition_buildCondition hcolumn v.shows hsome, ?_⟩
    rw [hread.lex_eq, List.singleton_append, conditionTruth_compare, compareTruth_scalar op hrow,
      Option.some.injEq, decide_eq_true_iff]
    rfl
  | isIn vs =>
    have hsome := listCondition_eq "IN" column h
    have hcondition := @readsCondition_buildCondition column "in" _ _ hcolumn (hshows vs) hsome
    refine ⟨_, hsome, hcondition, ?_⟩
    rw [(reads_list hin hcolumn vs).lex_eq, List.singleton_append, List.singleton_append,
      conditionTruth_in, inTruth_listTokens hrow h, Option.some.injEq, List.any_eq_true]
    simp only [decide_eq_true_eq]
    rfl
  | notIn vs =>
    have hsome := listCondition_eq "NOT IN" column h
    have hcondition := @readsCondition_buildCondition column "notIn" _ _ hcolumn (hshows vs) hsome
    refine ⟨_, hsome, hcondition, ?_⟩
    rw [(reads_list hnotIn hcolumn vs).lex_eq, List.singleton_append, List.cons_append,
      List.singleton_append, conditionTruth_notIn,
      inTruth_listTokens hrow h, Option.map_some, Option.some.injEq, Bool.not_eq_true',
      List.any_eq_false]
    simp only [decide_eq_true_eq]
    rfl

end Operator

variable {K : Type} [LinearOrder K] {rank : String → Json → K}

theorem conditions_toJson (filter : FilterObject) :
    conditions filter.toJson = filter.flatMap fun p =>
      p.2.filterMap fun op => buildCondition p.1 op.name op.operand := by
  show (filter.map fun p => Member.mk p.1 (.object (p.2.map fun op =>
    Member.mk op.name op.operand))).flatMap fieldConditions = _
  rw [List.flatMap_map]
  apply List.flatMap_congr
  intro p _
  show (p.2.map fun op => Member.mk op.name op.operand).filterMap _ = _
  rw [List.filterMap_map]
  rfl

/-- What is written for an operator is read as its condition. -/
theorem meaning_of_buildCondition {op : Operation} {column : String} {text : List Char}
    (hbuild : buildCondition column op.name op.operand = some text) (rank : String → Json → K)
    (row : DbRow) (hcolumn : '"' ∉ column.toList) (hrow : row column ≠ .null) :
    ReadsCondition text ∧
      (conditionTruth rank row (lex text) = some true ↔ op.Holds rank column (row column)) := by
  have hne : ¬op.IsEmptyList := fun hempty => by
    rw [buildCondition_empty hempty] at hbuild
    cases hbuild
  obtain ⟨text', htext, hmeaning⟩ := buildCondition_meaning hne rank row hcolumn hrow
  rw [hbuild] at htext
  rw [Option.some.inj htext]
  exact hmeaning

theorem keeps_iff (other : List Token → Bool) {filter : FilterObject} {row : DbRow}
    (hcolumns : ∀ p ∈ filter, '"' ∉ p.1.toList) (hrow : ∀ p ∈ filter, row p.1 ≠ .null) :
    keeps rank other (filtersToSql filter.toJson).1 row = true ↔
      ∀ p ∈ filter, ∀ op ∈ p.2, ¬op.IsEmptyList → op.Holds rank p.1 (row p.1) := by
  have hmem (text : List Char) : text ∈ conditions filter.toJson ↔
      ∃ p ∈ filter, ∃ op ∈ p.2, buildCondition p.1 op.name op.operand = some text := by
    rw [conditions_toJson]
    simp only [List.mem_flatMap, List.mem_filterMap]
  have hread : ∀ text ∈ conditions filter.toJson, ReadsCondition text := by
    intro text htext
    obtain ⟨p, hp, op, -, hbuild⟩ := (hmem text).mp htext
    exact (meaning_of_buildCondition hbuild rank row (hcolumns p hp) (hrow p hp)).1
  -- the clause is the conjunction of the conditions, and empty if there is none
  have hkeeps : keeps rank other (filtersToSql filter.toJson).1 row = true ↔
      ∀ text ∈ conditions filter.toJson, conditionTruth rank row (lex text) = some true := by
    unfold keeps filtersToSql
    dsimp only
    cases hconditions : conditions filter.toJson with
    | nil => simp
    | cons text texts =>
      rw [hconditions] at hread
      have hclause : (" AND ".toList.intercalate (text :: texts)).isEmpty = false := by
        have htext := (hread text List.mem_cons_self).ne_nil
        cases texts with
        | nil => simpa using htext
        | cons text' texts => simp
      rw [List.isEmpty_cons, if_neg Bool.false_ne_true, hclause, Bool.false_or,
        holds_and _ _ (List.cons_ne_nil text texts) hread, List.all_eq_true]
      simp only [decide_eq_true_eq]
  rw [hkeeps]
  constructor
  · intro h p hp op hop hne
    obtain ⟨text, htext, -, hmeaning⟩ :=
      buildCondition_meaning hne rank row (hcolumns p hp) (hrow p hp)
    exact hmeaning.mp (h text ((hmem text).mpr ⟨p, hp, op, hop, htext⟩))
  · intro h text htext
    obtain ⟨p, hp, op, hop, hbuild⟩ := (hmem text).mp htext
    have hne : ¬op.IsEmptyList := fun hempty => by
      rw [buildCondition_empty hempty] at hbuild
      cases hbuild
    have hmeaning := (meaning_of_buildCondition hbuild rank row (hcolumns p hp) (hrow p hp)).2
    exact hmeaning.mpr (h p hp op hop hne)

theorem Scalar.nulFree_valueToSql (v : Scalar) :
    NulFree (Resolver.valueToSql v.toJson) ↔ v.Clean := by
  cases v with
  | string s => simp [Resolver.nulFree_valueToSql, Scalar.toJson, Scalar.Clean]
  | number text isNumber =>
    have htext := Resolver.nulFree_number isNumber
    simpa [Resolver.valueToSql, Scalar.toJson, Scalar.Clean] using htext
  | bool b => simp [Resolver.nulFree_valueToSql, Scalar.toJson, Scalar.Clean]

theorem nulFree_listCondition {words column : String} (hwords : NulFree words.toList)
    (hcolumn : NulFree column.toList) {vs : List Scalar} (hne : vs ≠ []) {text : List Char}
    (h : listCondition words column (.array (vs.map Scalar.toJson)) = some text) :
    NulFree text ↔ ∀ v ∈ vs, v.Clean := by
  have hseparator : NulFree ", ".toList := by decide
  have hsymbols : NulFree [' ', '(', ')'] := by decide
  simp only [nulFree_cons] at hsymbols
  have hlist : NulFree (", ".toList.intercalate (vs.map fun v => Resolver.valueToSql v.toJson)) ↔
      ∀ v ∈ vs, v.Clean := by
    rw [nulFree_intercalate hseparator, List.forall_mem_map]
    simp only [Scalar.nulFree_valueToSql]
  rw [listCondition_eq words column hne] at h
  rw [← Option.some.inj h, literals_map, ← hlist]
  simp [hwords, hsymbols, nulFree_quoteName hcolumn]

theorem nulFree_buildCondition {column : String} (hcolumn : NulFree column.toList) {op : Operation}
    {text : List Char} (h : buildCondition column op.name op.operand = some text) :
    NulFree text ↔ ∀ v ∈ op.scalars, v.Clean := by
  cases op with
  | compare op v =>
    have hop : NulFree op.sqlOp.toList := by cases op <;> decide
    have hspace : ' ' ≠ Char.ofNat 0 := by decide
    rw [buildCondition_scalar] at h
    rw [← Option.some.inj h]
    simp [hop, hspace, nulFree_quoteName hcolumn, Scalar.nulFree_valueToSql, Operation.scalars]
  | isIn vs =>
    have hne : vs ≠ [] := fun hnil => by
      rw [hnil] at h
      cases h
    exact nulFree_listCondition (by decide) hcolumn hne h
  | notIn vs =>
    have hne : vs ≠ [] := fun hnil => by
      rw [hnil] at h
      cases h
    exact nulFree_listCondition (by decide) hcolumn hne h

theorem nulFree_filtersToSql {filter : FilterObject}
    (hcolumns : ∀ p ∈ filter, NulFree p.1.toList) :
    NulFree (filtersToSql filter.toJson).1 ↔ ∀ p ∈ filter, ∀ op ∈ p.2, ∀ v ∈ op.scalars, v.Clean := by
  have hclause : NulFree (filtersToSql filter.toJson).1 ↔
      ∀ text ∈ conditions filter.toJson, NulFree text := by
    have hseparator : NulFree " AND ".toList := by decide
    unfold filtersToSql
    dsimp only
    split_ifs with hnil
    · simp [List.isEmpty_iff.mp hnil]
    · exact nulFree_intercalate hseparator
  rw [hclause, conditions_toJson]
  constructor
  · intro h p hp op hop v hv
    cases hbuild : buildCondition p.1 op.name op.operand with
    | some text =>
      have htext := h text (List.mem_flatMap.mpr ⟨p, hp, List.mem_filterMap.mpr ⟨op, hop, hbuild⟩⟩)
      exact (nulFree_buildCondition (hcolumns p hp) hbuild).mp htext v hv
    | none =>
      -- nothing is written for a list of no values
      cases op with
      | compare op w =>
        have hsome := buildCondition_scalar op p.1 w
        cases hbuild.symm.trans hsome
      | isIn vs =>
        have hsome := listCondition_eq "IN" p.1 (List.ne_nil_of_mem hv)
        cases hbuild.symm.trans hsome
      | notIn vs =>
        have hsome := listCondition_eq "NOT IN" p.1 (List.ne_nil_of_mem hv)
        cases hbuild.symm.trans hsome
  · intro h text htext
    obtain ⟨p, hp, hp'⟩ := List.mem_flatMap.mp htext
    obtain ⟨op, hop, hbuild⟩ := List.mem_filterMap.mp hp'
    exact (nulFree_buildCondition (hcolumns p hp) hbuild).mpr (h p hp op hop)

/-- The clause is a SQL text, and it keeps the row if and only if all operators hold of it. -/
def Means (rank : String → Json → K) (other : List Token → Bool) (filter : FilterObject)
    (row : DbRow) : Prop :=
  NulFree (filtersToSql filter.toJson).1 ∧
    (keeps rank other (filtersToSql filter.toJson).1 row = true ↔
      ∀ p ∈ filter, ∀ op ∈ p.2, op.Holds rank p.1 (row p.1))

/-- A rank for the examples: the sum of the characters. -/
def textRank (_ : String) : Json → ℕ
  | .string s => (s.toList.map Char.toNat).sum
  | .number text => (text.toList.map Char.toNat).sum
  | _ => 0

/-- An active account. -/
def activeRow : DbRow := fun c => if c = "status" then .string "active" else .number "7"

end Filters

end ForgeIndex
