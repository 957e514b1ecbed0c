import Mathlib.Data.List.Dedup
import ForgeIndex.Config.CreateSql
import ForgeIndex.Lib.FirstWins

/-!
# The names of the relations

Tables, shadow tables and indexes are relations of one namespace in Postgres, and the statements of
`to_create_sql` skip a relation whose name is taken.  The names are those of the statements: that
Postgres cuts an identifier to 63 bytes, and that a primary key gets an index `<table>_pkey` of its
own, is left out.
-/

namespace ForgeIndex

deriving instance DecidableEq for CreateStatement

/-- The relation that the statement makes. -/
def CreateStatement.relation : CreateStatement → String
  | table t isReorg => t.relationName isReorg
  | index tableName i => i.name tableName

/-- The statements that take effect in an empty Postgres schema: `IF NOT EXISTS` skips a relation
whose name is taken. -/
def created (stmts : List CreateStatement) : List CreateStatement :=
  FirstWins.insertAllNew (fun c d => decide (d.relation = c.relation)) [] stmts

namespace Schema

/-- The names of the relations, of equal statements only one. -/
def relationNames (s : Schema) : List String :=
  s.createStatements.dedup.map CreateStatement.relation

/-- No two relations have one name, and every statement takes effect. -/
structure SkipsNothing (s : Schema) : Prop where
  distinct : s.relationNames.Nodup
  effective : ∀ c ∈ s.createStatements, c ∈ created s.createStatements

end Schema

/-- What stands between the underscores. -/
def nameWords (name : String) : List (List Char) := name.toList.splitOn '_'

/-- The words that the columns of an index give to its name. -/
def IndexDef.words (i : IndexDef) : List (List Char) :=
  match i.columns with
  | [] => [[]]
  | columns => columns.flatMap nameWords

/-- When the names keep the relations apart. -/
structure Schema.NamesApart (s : Schema) : Prop where
  /-- No table is called as the shadow of a table. -/
  shadow : ∀ t ∈ s.tables, ∀ u ∈ s.tables,
    nameWords t.name ≠ [] :: "reorg".toList :: nameWords u.name
  /-- No table is called as an index. -/
  table : ∀ t ∈ s.tables, ∀ u ∈ s.tables, ∀ i ∈ u.indexes,
    nameWords t.name ≠ "idx".toList :: (nameWords u.name ++ i.words)
  /-- Two indexes of a table differ in the words of their columns. -/
  columns : ∀ t ∈ s.tables, ∀ i ∈ t.indexes, ∀ j ∈ t.indexes, i.words = j.words → i = j
  /-- No index begins with the words that a longer table name has more, and goes on as an index
  of that table. -/
  boundary : ∀ t ∈ s.tables, ∀ i ∈ t.indexes, ∀ u ∈ s.tables, ∀ j ∈ u.indexes, ∀ more ≠ [],
    nameWords u.name = nameWords t.name ++ more → i.words ≠ more ++ j.words

theorem nameWords_injective : Function.Injective nameWords := by
  intro a b h
  have hjoin := congrArg (List.intercalate ['_']) h
  unfold nameWords at hjoin
  rw [List.intercalate_splitOn, List.intercalate_splitOn] at hjoin
  exact String.toList_inj.mp hjoin

theorem splitOn_intercalate_flatMap {l : List Char} {ls : List (List Char)} :
    (List.intercalate ['_'] (l :: ls)).splitOn '_' = (l :: ls).flatMap (List.splitOn '_') := by
  induction ls generalizing l with
  | nil => simp
  | cons l' ls ih =>
    rw [List.intercalate_cons_cons, List.append_assoc, List.singleton_append,
      List.splitOn_append_cons_self, ih, ← List.flatMap_cons]

theorem words_append (a b : String) : nameWords (a ++ "_" ++ b) = nameWords a ++ nameWords b := by
  unfold nameWords
  rw [String.toList_append, String.toList_append, List.append_assoc]
  exact List.splitOn_append_cons_self a.toList b.toList

theorem nameWords_columns (i : IndexDef) : nameWords ("_".intercalate i.columns) = i.words := by
  obtain ⟨columns, unique⟩ := i
  cases columns with
  | nil => rfl
  | cons c cs =>
    unfold nameWords IndexDef.words
    rw [String.toList_intercalate, List.map_cons]
    exact splitOn_intercalate_flatMap.trans (by rw [← List.map_cons, List.flatMap_map]; rfl)

theorem nameWords_index (tableName : String) (i : IndexDef) :
    nameWords (i.name tableName) = "idx".toList :: (nameWords tableName ++ i.words) := by
  have hname : i.name tableName =
      "idx" ++ "_" ++ (tableName ++ "_" ++ "_".intercalate i.columns) := by
    unfold IndexDef.name
    simp only [String.append_assoc]
    rfl
  rw [hname, words_append, words_append, nameWords_columns]
  rfl

theorem nameWords_shadow (t : TableDef) :
    nameWords (t.relationName true) = [] :: "reorg".toList :: nameWords t.name := by
  have hname : t.relationName true = "" ++ "_" ++ ("reorg" ++ "_" ++ t.name) := by
    show "_reorg_" ++ t.name = _
    simp only [← String.append_assoc]
    rfl
  rw [hname, words_append, words_append]
  rfl

theorem mem_createStatements {s : Schema} {c : CreateStatement} :
    c ∈ s.createStatements ↔ ∃ t ∈ s.tables, c = .table t false ∨
      (∃ i ∈ t.indexes, c = .index t.name i) ∨ c = .table t true := by
  unfold Schema.createStatements
  rw [List.mem_flatMap]
  simp [eq_comm]

theorem index_ne_shadow (tableName : String) (i : IndexDef) (t : TableDef) :
    i.name tableName ≠ t.relationName true := by
  intro h
  have hwords := congrArg nameWords h
  rw [nameWords_index, nameWords_shadow] at hwords
  cases hwords

theorem shadow_inj {t u : TableDef} (h : t.relationName true = u.relationName true) :
    t.name = u.name := by
  have hwords := congrArg nameWords h
  rw [nameWords_shadow, nameWords_shadow] at hwords
  exact nameWords_injective (List.cons.inj (List.cons.inj hwords).2).2

namespace Schema.NamesApart

variable {s : Schema} (h : s.NamesApart)

include h

theorem main_ne_shadow {t u : TableDef} (ht : t ∈ s.tables) (hu : u ∈ s.tables) :
    t.relationName false ≠ u.relationName true := by
  intro he
  apply h.shadow t ht u hu
  rw [← nameWords_shadow]
  exact congrArg nameWords he

theorem main_ne_index {t u : TableDef} (ht : t ∈ s.tables) (hu : u ∈ s.tables) {i : IndexDef}
    (hi : i ∈ u.indexes) : t.relationName false ≠ i.name u.name := by
  intro he
  apply h.table t ht u hu i hi
  rw [← nameWords_index]
  exact congrArg nameWords he

theorem index_inj (hnames : (s.tables.map TableDef.name).Nodup) {t u : TableDef}
    (ht : t ∈ s.tables) (hu : u ∈ s.tables) {i j : IndexDef} (hi : i ∈ t.indexes)
    (hj : j ∈ u.indexes) (he : i.name t.name = j.name u.name) : t.name = u.name ∧ i = j := by
  have hwords := congrArg nameWords he
  rw [nameWords_index, nameWords_index] at hwords
  have hrest := (List.cons.inj hwords).2
  by_cases hname : t.name = u.name
  · have htable : t = u := List.inj_on_of_nodup_map hnames ht hu hname
    subst htable
    exact ⟨rfl, h.columns t ht i hi j hj (List.append_cancel_left hrest)⟩
  · -- one of the table names goes on where the other one ends
    have hmore {v w : TableDef} {more : List (List Char)} (hne : v.name ≠ w.name)
        (hvw : nameWords w.name = nameWords v.name ++ more) : more ≠ [] := by
      intro hnil
      rw [hnil, List.append_nil] at hvw
      exact hne (nameWords_injective hvw).symm
    rcases List.append_eq_append_iff.mp hrest with ⟨more, hvw, hcolumns⟩ | ⟨more, hvw, hcolumns⟩
    · exact absurd hcolumns (h.boundary t ht i hi u hu j hj more (hmore hname hvw) hvw)
    · exact absurd hcolumns (h.boundary u hu j hj t ht i hi more (hmore (Ne.symm hname) hvw) hvw)

end Schema.NamesApart

theorem namesApart_of_relation_inj {s : Schema}
    (h : ∀ c ∈ s.createStatements, ∀ d ∈ s.createStatements, c.relation = d.relation → c = d) :
    s.NamesApart := by
  have hmain {t : TableDef} (ht : t ∈ s.tables) : .table t false ∈ s.createStatements :=
    mem_createStatements.mpr ⟨t, ht, Or.inl rfl⟩
  have hindex {t : TableDef} (ht : t ∈ s.tables) {i : IndexDef} (hi : i ∈ t.indexes) :
      .index t.name i ∈ s.createStatements :=
    mem_createStatements.mpr ⟨t, ht, Or.inr (Or.inl ⟨i, hi, rfl⟩)⟩
  have hshadow {t : TableDef} (ht : t ∈ s.tables) : .table t true ∈ s.createStatements :=
    mem_createStatements.mpr ⟨t, ht, Or.inr (Or.inr rfl)⟩
  refine ⟨?_, ?_, ?_, ?_⟩
  · intro t ht u hu he
    have hname : t.relationName false = u.relationName true :=
      nameWords_injective (he.trans (nameWords_shadow u).symm)
    cases h _ (hmain ht) _ (hshadow hu) hname
  · intro t ht u hu i hi he
    have hname : t.relationName false = i.name u.name :=
      nameWords_injective (he.trans (nameWords_index u.name i).symm)
    cases h _ (hmain ht) _ (hindex hu hi) hname
  · intro t ht i hi j hj he
    have hname : i.name t.name = j.name t.name := by
      apply nameWords_injective
      rw [nameWords_index, nameWords_index, he]
    cases h _ (hindex ht hi) _ (hindex ht hj) hname
    rfl
  · intro t ht i hi u hu j hj more hmore hvw hcolumns
    have hname : i.name t.name = j.name u.name := by
      apply nameWords_injective
      rw [nameWords_index, nameWords_index, hcolumns, hvw, List.append_assoc]
    have hsame := (CreateStatement.index.inj (h _ (hindex ht hi) _ (hindex hu hj) hname)).1
    rw [hsame] at hvw
    exact hmore (List.self_eq_append_right.mp hvw)

theorem Schema.NamesApart.relation_inj {s : Schema} (h : s.NamesApart)
    (hnames : (s.tables.map TableDef.name).Nodup) :
    ∀ c ∈ s.createStatements, ∀ d ∈ s.createStatements, c.relation = d.relation → c = d := by
  intro c hc d hd he
  obtain ⟨t, ht, hc⟩ := mem_createStatements.mp hc
  obtain ⟨u, hu, hd⟩ := mem_createStatements.mp hd
  rcases hc with rfl | ⟨i, hi, rfl⟩ | rfl <;> rcases hd with rfl | ⟨j, hj, rfl⟩ | rfl
  · rw [List.inj_on_of_nodup_map hnames ht hu he]
  · exact absurd he (h.main_ne_index ht hu hj)
  · exact absurd he (h.main_ne_shadow ht hu)
  · exact absurd he.symm (h.main_ne_index hu ht hi)
  · obtain ⟨hname, hij⟩ := h.index_inj hnames ht hu hi hj he
    rw [hname, hij]
  · exact absurd he (index_ne_shadow t.name i u)
  · exact absurd he.symm (h.main_ne_shadow hu ht)
  · exact absurd he.symm (index_ne_shadow u.name j t)
  · rw [List.inj_on_of_nodup_map hnames ht hu (shadow_inj he)]

/-- The statements of an accepted schema have names of their own exactly when its names keep them
apart. -/
theorem relation_inj_iff {s : Schema} (hnames : (s.tables.map TableDef.name).Nodup) :
    (∀ c ∈ s.createStatements, ∀ d ∈ s.createStatements, c.relation = d.relation → c = d) ↔
      s.NamesApart :=
  ⟨namesApart_of_relation_inj, fun h => h.relation_inj hnames⟩

theorem skipsNothing_iff_inj (s : Schema) :
    s.SkipsNothing ↔
      ∀ c ∈ s.createStatements, ∀ d ∈ s.createStatements, c.relation = d.relation → c = d := by
  have hdistinct : s.relationNames.Nodup ↔
      ∀ c ∈ s.createStatements, ∀ d ∈ s.createStatements, c.relation = d.relation → c = d := by
    unfold Schema.relationNames
    rw [List.nodup_map_iff_inj_on (List.nodup_dedup _)]
    simp only [List.mem_dedup]
  have heffective := FirstWins.mem_insertAllNew_iff CreateStatement.relation s.createStatements
  exact ⟨fun h => hdistinct.mp h.distinct, fun h => ⟨hdistinct.mpr h, heffective.mpr h⟩⟩

/-- Nothing of an accepted schema is skipped exactly when its names keep the relations apart. -/
theorem skipsNothing_iff {s : Schema} (h : validateSchema s = []) :
    s.SkipsNothing ↔ s.NamesApart := by
  rw [skipsNothing_iff_inj, relation_inj_iff (nodup_of_validateSchema h)]

/-- A table with these indexes. -/
def tokens (indexes : List IndexDef) : Schema :=
  ⟨[⟨"tokens", [⟨"id", .text, false, true, none⟩, ⟨"owner", .text, false, false, none⟩], indexes⟩]⟩

theorem skipsNothing_iff_tokens :
    (tokens [⟨["owner"], true⟩]).SkipsNothing ↔ (tokens [⟨["owner"], true⟩]).NamesApart :=
  skipsNothing_iff (by decide)

/-- A unique index on a column that has an index before. -/
theorem unique_index_skipped : ¬∀ s : Schema, validateSchema s = [] → s.SkipsNothing := by
  intro h
  have hskips := h (tokens [⟨["owner"], false⟩, ⟨["owner"], true⟩]) (by decide)
  have hcreated := hskips.effective (.index "tokens" ⟨["owner"], true⟩) (by decide)
  revert hcreated
  decide

end ForgeIndex
