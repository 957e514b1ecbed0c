import ForgeIndex.Api.Graphql.Resolver

/-!
# Filters

`forge-index-api/src/graphql/filters.rs`: the conditions that a `where` argument stands for.  Each of
them is read as a condition of its own, whatever its values are.
-/

namespace ForgeIndex

open Text SqlLexer

namespace Filters

def valueToSqlLiteral : Json → Option (List Char)
  | .string s => some ('\'' :: replaceAll ['\''] ['\'', '\''] s.toList ++ ['\''])
  | .number text => some text.toList
  | .bool b => some (if b then "true" else "false").toList
  | .null => some "NULL".toList
  | _ => none

/-- A name between double quotes. -/
def quoteName (name : String) : List Char := '"' :: (name.toList ++ ['"'])

/-- The arm of `eq`, `gt`, `gte`, `lt` and `lte`. -/
def compareCondition (sqlOp : String) (field : String) (value : Json) : Option (List Char) :=
  (valueToSqlLiteral value).map fun sqlVal =>
    quoteName field ++ ' ' :: (sqlOp.toList ++ ' ' :: sqlVal)

/-- The arms of `in` and `notIn`; values that have no literal are passed over. -/
def listCondition (words : String) (field : String) : Json → Option (List Char)
  | .array arr =>
    let vals := arr.filterMap valueToSqlLiteral
    if vals.isEmpty then none
    else some (quoteName field ++ ' ' :: (words.toList ++ ' ' ::
      '(' :: (", ".toList.intercalate vals ++ [')'])))
  | _ => none

/-- The arm of `contains`; a value that is no string counts as the empty one. -/
def containsCondition (field : String) (value : Json) : List Char :=
  let raw := value.asStr.getD ""
  quoteName field ++ ' ' :: ("ILIKE".toList ++ ' ' ::
    '\'' :: ('%' :: replaceAll ['\''] ['\'', '\''] raw.toList ++ ['%', '\'']))

def buildCondition (field op : String) (value : Json) : Option (List Char) :=
  match op with
  | "eq" => compareCondition "=" field value
  | "gt" => compareCondition ">" field value
  | "gte" => compareCondition ">=" field value
  | "lt" => compareCondition "<" field value
  | "lte" => compareCondition "<=" field value
  | "contains" => some (containsCondition field value)
  | "in" => listCondition "IN" field value
  | "notIn" => listCondition "NOT IN" field value
  | _ => none

/-- The conditions of one field. -/
def fieldConditions : Member → List (List Char)
  | .mk field (.object ops) => ops.filterMap fun
    | .mk op value => buildCondition field op value
  | _ => []

/-- The conditions of a filter, in order. -/
def conditions : Json → List (List Char)
  | .object fields => fields.flatMap fieldConditions
  | _ => []

/-- `filters_to_sql`; the parameters stay empty. -/
def filtersToSql (filter : Json) : List Char × List (List Char) :=
  (if (conditions filter).isEmpty then [] else " AND ".toList.intercalate (conditions filter), [])

/-- A number of the value is shown as JSON writes it. -/
def ShowsNumbers : Json → Prop
  | .number text => Resolver.IsJsonNumber text.toList
  | .array items => ∀ text, .number text ∈ items → Resolver.IsJsonNumber text.toList
  | _ => True

/-- A `where` argument as the GraphQL schema lets it through: its fields are columns. -/
def IsFilter (columns : List String) (filter : Json) : Prop :=
  ∀ fields, filter = .object fields → ∀ field value, .mk field value ∈ fields → field ∈ columns ∧
    ∀ ops, value = .object ops → ∀ op operand, .mk op operand ∈ ops → ShowsNumbers operand

theorem reads_quoteName {name : String} (h : '"' ∉ name.toList) :
    Lexes (quoteName name) [.quoted name.toList] := reads_quoted h

theorem nulFree_quoteName {column : String} (h : NulFree column.toList) :
    NulFree (quoteName column) := by
  unfold quoteName
  simp [h]

theorem literal_eq {value : Json} {text : List Char} (h : valueToSqlLiteral value = some text) :
    text = Resolver.valueToSql value := by
  cases value with
  | array items => cases h
  | object members => cases h
  | _ => exact (Option.some.inj h).symm

theorem reads_literal {value : Json} (hnumber : ShowsNumbers value) {text : List Char}
    (h : valueToSqlLiteral value = some text) : Lexes text (Resolver.valueTokens value) := by
  rw [literal_eq h]
  apply Resolver.reads_valueToSql
  rintro number rfl
  exact hnumber

theorem reads_symbols {op : List Char} (h : ∀ c ∈ op, start c = ([.symbol c], .plain)) :
    Lexes op (op.map Token.symbol) := by
  induction op with
  | nil => exact fun rest _ => rfl
  | cons c op ih =>
    intro rest hrest
    rw [List.cons_append, lex_symbol (h c List.mem_cons_self),
      ih (fun d hd => h d (List.mem_cons_of_mem c hd)) rest hrest]
    rfl

theorem stands_valueTokens (value : Json) : ∀ t ∈ Resolver.valueTokens value,
    standsInCondition t = true ∧ t ≠ .symbol '(' ∧ t ≠ .symbol ')' := by
  cases value with
  | number text =>
    show ∀ t ∈ Resolver.numberTokens text.toList, _
    unfold Resolver.numberTokens
    split <;> simp [standsInCondition]
  | bool b => cases b <;> simp [Resolver.valueTokens, standsInCondition, conditionWords]
  | _ => simp [Resolver.valueTokens, standsInCondition, conditionWords]

theorem reads_compare {sqlOp field : String} {value : Json} {text : List Char}
    (hop : ∀ c ∈ sqlOp.toList, start c = ([.symbol c], .plain)) (hfield : '"' ∉ field.toList)
    (hnumber : ShowsNumbers value) (h : compareCondition sqlOp field value = some text) :
    Lexes text ([.quoted field.toList] ++ (sqlOp.toList.map Token.symbol ++
      Resolver.valueTokens value)) := by
  obtain ⟨sqlVal, hval, rfl⟩ := Option.map_eq_some_iff.mp h
  exact (reads_quoteName hfield).space
    ((reads_symbols hop).space (reads_literal hnumber hval))

theorem readsCondition_compare {sqlOp field : String} {value : Json} {text : List Char}
    (hall : (sqlOp.toList.all fun c => start c = ([.symbol c], .plain) ∧ c ≠ '(' ∧ c ≠ ')') = true)
    (hfield : '"' ∉ field.toList) (hnumber : ShowsNumbers value)
    (h : compareCondition sqlOp field value = some text) : ReadsCondition text := by
  have hop := List.all_iff_forall_prop.mp hall
  have hread := reads_compare (fun c hc => (hop c hc).1) hfield hnumber h
  refine ⟨_, hread, isCondition_of_plain (by simp) ?_⟩
  intro t ht
  rcases List.mem_append.mp ht with ht | ht
  · rw [List.mem_singleton.mp ht]
    simp [standsInCondition]
  · rcases List.mem_append.mp ht with ht | ht
    · obtain ⟨c, hc, rfl⟩ := List.mem_map.mp ht
      simpa [standsInCondition] using (hop c hc).2
    · exact stands_valueTokens value t ht

theorem pattern_literal (raw : List Char) :
    '\'' :: ('%' :: replaceAll ['\''] ['\'', '\''] raw ++ ['%', '\'']) =
      '\'' :: (doubled '\'' ('%' :: raw ++ ['%']) ++ ['\'']) := by
  rw [Resolver.replaceAll_quote]
  simp [doubled]

theorem readsCondition_contains {field : String} (hfield : '"' ∉ field.toList) (value : Json) :
    ReadsCondition (containsCondition field value) := by
  have hilike : Lexes "ILIKE".toList [.word "ILIKE".toList] :=
    reads_word (w := "LIKE".toList) rfl (by decide)
  have hread := (reads_quoteName hfield).space
    (hilike.space (reads_string ('%' :: (value.asStr.getD "").toList ++ ['%'])))
  rw [← pattern_literal] at hread
  refine ⟨_, hread, isCondition_of_plain (by simp) ?_⟩
  simp [standsInCondition, conditionWords]

theorem reads_vals {arr : List Json} (hnumber : ShowsNumbers (.array arr)) :
    ∃ ts, Lexes (", ".toList.intercalate (arr.filterMap valueToSqlLiteral)) ts ∧
      ∀ t ∈ ts, standsInCondition t = true ∧ t ≠ .symbol '(' ∧ t ≠ .symbol ')' := by
  -- values without a literal, that is arrays and objects, are left out
  have hparts : ∃ parts : List (List Char × List Token),
      parts.map Prod.fst = arr.filterMap valueToSqlLiteral ∧ ∀ p ∈ parts, Lexes p.1 p.2 ∧
        ∀ t ∈ p.2, standsInCondition t = true ∧ t ≠ .symbol '(' ∧ t ≠ .symbol ')' := by
    induction arr with
    | nil => exact ⟨[], rfl, by simp⟩
    | cons value arr ih =>
      obtain ⟨parts, hparts, hread⟩ := ih fun text ht => hnumber text (List.mem_cons_of_mem _ ht)
      cases hvalue : valueToSqlLiteral value with
      | none =>
        rw [List.filterMap_cons_none hvalue]
        exact ⟨parts, hparts, hread⟩
      | some text =>
        have hshows : ShowsNumbers value := by
          cases value with
          | number n => exact hnumber n List.mem_cons_self
          | array items => cases hvalue
          | _ => trivial
        refine ⟨(text, Resolver.valueTokens value) :: parts, ?_, ?_⟩
        · rw [List.filterMap_cons_some hvalue, List.map_cons, hparts]
        · intro p hp
          rcases List.mem_cons.mp hp with rfl | hp
          · exact ⟨reads_literal hshows hvalue, stands_valueTokens value⟩
          · exact hread p hp
  obtain ⟨parts, hparts, hread⟩ := hparts
  refine ⟨[Token.symbol ','].intercalate (parts.map Prod.snd), ?_, ?_⟩
  · rw [← hparts]
    exact reads_commas fun p hp => (hread p hp).1
  · intro t ht
    rcases mem_of_mem_intercalate ht with ht | ⟨ts, hts, ht⟩
    · rw [List.mem_singleton.mp ht]
      simp [standsInCondition]
    · obtain ⟨p, hp, rfl⟩ := List.mem_map.mp hts
      exact (hread p hp).2 t ht

theorem readsCondition_list {words field : String} {value : Json} {text : List Char}
    {keywords : List Token} (hwords : Lexes words.toList keywords)
    (hkeywords : ∀ t ∈ keywords, standsInCondition t = true ∧ t ≠ .symbol '(' ∧ t ≠ .symbol ')')
    (hfield : '"' ∉ field.toList) (hnumber : ShowsNumbers value)
    (h : listCondition words field value = some text) : ReadsCondition text := by
  unfold listCondition at h
  split at h
  · next arr =>
    dsimp only at h
    split_ifs at h
    obtain rfl := Option.some.inj h
    obtain ⟨ts, hts, hplain⟩ := reads_vals hnumber
    have hread := (reads_quoteName hfield).space (hwords.space hts.parens)
    refine ⟨_, hread, ?_⟩
    have hstands : ∀ t ∈ [Token.quoted field.toList] ++ (keywords ++ .symbol '(' :: (ts ++
        [.symbol ')'])), standsInCondition t = true := by
      simp only [List.mem_append, List.mem_cons, List.not_mem_nil, or_false]
      rintro t (rfl | ht | rfl | ht | rfl)
      · rfl
      · exact (hkeywords t ht).1
      · rfl
      · exact (hplain t ht).1
      · rfl
    have hbalanced : balanced 0 ([Token.quoted field.toList] ++ (keywords ++ .symbol '(' :: (ts ++
        [.symbol ')']))) = true := by
      have hhead : balanced 0 (.quoted field.toList :: keywords) = true := by
        apply balanced_of_forall
        simpa using fun t ht => (hkeywords t ht).2
      have hall := balanced_append hhead (.symbol '(' :: (ts ++ [.symbol ')'])) 0
      have htail := balanced_parens (balanced_of_forall fun t ht => (hplain t ht).2) []
      exact hall.trans htail
    unfold isCondition
    rw [List.all_eq_true.mpr hstands, hbalanced]
    rfl
  · cases h

theorem readsCondition_buildCondition {field op : String} {value : Json} {text : List Char}
    (hfield : '"' ∉ field.toList) (hnumber : ShowsNumbers value)
    (h : buildCondition field op value = some text) : ReadsCondition text := by
  have hin : Lexes "IN".toList [.word "IN".toList] := reads_word (w := "N".toList) rfl (by decide)
  have hnot : Lexes "NOT".toList [.word "NOT".toList] :=
    reads_word (w := "OT".toList) rfl (by decide)
  have hnotIn : Lexes "NOT IN".toList [.word "NOT".toList, .word "IN".toList] := hnot.space hin
  unfold buildCondition at h
  split at h
  · exact readsCondition_compare (by decide) hfield hnumber h
  · exact readsCondition_compare (by decide) hfield hnumber h
  · exact readsCondition_compare (by decide) hfield hnumber h
  · exact readsCondition_compare (by decide) hfield hnumber h
  · exact readsCondition_compare (by decide) hfield hnumber h
  · rw [← Option.some.inj h]
    exact readsCondition_contains hfield value
  · exact readsCondition_list hin (by decide) hfield hnumber h
  · exact readsCondition_list hnotIn (by decide) hfield hnumber h
  · cases h

/-- Whatever values a filter has, each of its conditions is read as a condition of its own. -/
theorem readsCondition_of_mem_conditions {columns : List String} {filter : Json}
    (hcolumns : ∀ c ∈ columns, '"' ∉ c.toList) (hfilter : IsFilter columns filter)
    {text : List Char} (h : text ∈ conditions filter) : ReadsCondition text := by
  unfold conditions at h
  split at h
  · next fields =>
    obtain ⟨⟨field, value⟩, hfield, htext⟩ := List.mem_flatMap.mp h
    obtain ⟨hcolumn, hops⟩ := hfilter fields rfl field value hfield
    unfold fieldConditions at htext
    split at htext
    · next heq =>
      obtain ⟨rfl, rfl⟩ := heq
      obtain ⟨⟨op, operand⟩, hop, hbuild⟩ := List.mem_filterMap.mp htext
      exact readsCondition_buildCondition (hcolumns _ hcolumn) (hops _ rfl op operand hop) hbuild
    · cases htext
  · cases h

end Filters

end ForgeIndex
