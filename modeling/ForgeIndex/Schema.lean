import Mathlib.Data.List.Basic

/-!
# Table definitions

The part of `forge-index-config` that the write path reads: columns, indexes, tables, and the
schema checks of `validate`.
-/

namespace ForgeIndex

inductive ColumnType where
  | text | boolean | int | bigInt | float | hex | address | hash | json | bytes | timestamp
  deriving DecidableEq, Repr

/-- `ColumnDef`; `TableBuilder::column` makes a non-nullable column that is no key. -/
structure ColumnDef where
  name : String
  colType : ColumnType := .text
  nullable : Bool := false
  primaryKey : Bool := false
  references : Option (String × String) := none
  deriving DecidableEq, Repr

structure IndexDef where
  columns : List String
  unique : Bool
  deriving DecidableEq, Repr

structure TableDef where
  name : String
  columns : List ColumnDef
  indexes : List IndexDef := []
  deriving DecidableEq, Repr

structure Schema where
  tables : List TableDef
  deriving DecidableEq, Repr

namespace TableDef

/-- The column names, in order. -/
def columnNames (t : TableDef) : List String := t.columns.map ColumnDef.name

/-- `table.columns.iter().find(|c| c.primary_key)`. -/
def pk (t : TableDef) : Option String :=
  (t.columns.find? fun c => c.primaryKey).map ColumnDef.name

/-- The column sets that `CREATE TABLE` and `CREATE UNIQUE INDEX` make unique. -/
def uniqueSets (t : TableDef) : List (List String) :=
  (t.columns.filter fun c => c.primaryKey).map (fun c => [c.name]) ++
    (t.indexes.filter fun i => i.unique).map IndexDef.columns

/-- The columns declared `NOT NULL`; a primary key is one of them. -/
def notNull (t : TableDef) : List String :=
  (t.columns.filter fun c => !c.nullable || c.primaryKey).map ColumnDef.name

theorem pk_mem_notNull {t : TableDef} {pk : String} (h : t.pk = some pk) : pk ∈ t.notNull := by
  obtain ⟨c, hc, rfl⟩ := Option.map_eq_some_iff.mp h
  have hp := List.find?_some hc
  exact List.mem_map.mpr ⟨c, List.mem_filter.mpr ⟨List.mem_of_find?_eq_some hc, by simp [hp]⟩, rfl⟩

theorem pk_mem_uniqueSets {t : TableDef} {pk : String} (h : t.pk = some pk) :
    [pk] ∈ t.uniqueSets := by
  obtain ⟨c, hc, rfl⟩ := Option.map_eq_some_iff.mp h
  have hp := List.find?_some hc
  exact List.mem_append_left _
    (List.mem_map.mpr ⟨c, List.mem_filter.mpr ⟨List.mem_of_find?_eq_some hc, hp⟩, rfl⟩)

theorem pk_mem_columnNames {t : TableDef} {pk : String} (h : t.pk = some pk) :
    pk ∈ t.columnNames := by
  obtain ⟨c, hc, rfl⟩ := Option.map_eq_some_iff.mp h
  exact List.mem_map.mpr ⟨c, List.mem_of_find?_eq_some hc, rfl⟩

end TableDef

/-- The table that exists under a name. -/
def Schema.find (s : Schema) (name : String) : Option TableDef :=
  s.tables.find? fun t => t.name = name

/-- The elements that a `HashSet` filled from the left has already seen. -/
def repeats (seen : List String) : List String → List String
  | [] => []
  | n :: ns => if n ∈ seen then n :: repeats seen ns else repeats (n :: seen) ns

/-- The primary key and duplicate column checks of `validate` for one table. -/
def tableErrors (t : TableDef) : List String :=
  let pkCount := (t.columns.filter fun c => c.primaryKey).length
  (if pkCount = 0 then ["Table '" ++ t.name ++ "' has no primary key column"]
    else if pkCount > 1 then
      ["Table '" ++ t.name ++ "' has " ++ toString pkCount ++
        " primary key columns, expected exactly 1"]
    else []) ++
  (repeats [] t.columnNames).map fun c =>
    "Table '" ++ t.name ++ "' has duplicate column name: '" ++ c ++ "'"

/-- The schema section of `validate`: the messages, in order. -/
def validateSchema (s : Schema) : List String :=
  (repeats [] (s.tables.map TableDef.name)).map (fun n => "Duplicate table name: '" ++ n ++ "'") ++
    s.tables.flatMap tableErrors

theorem nodup_of_repeats {ns seen : List String} (h : repeats seen ns = []) :
    ns.Nodup ∧ ∀ n ∈ ns, n ∉ seen := by
  induction ns generalizing seen with
  | nil => simp
  | cons n ns ih =>
    unfold repeats at h
    split_ifs at h with hn
    obtain ⟨hnd, hseen⟩ := ih h
    refine ⟨List.nodup_cons.mpr ⟨fun hm => hseen n hm List.mem_cons_self, hnd⟩, ?_⟩
    intro m hm hs
    rcases List.mem_cons.mp hm with rfl | hm
    · exact hn hs
    · exact hseen m hm (List.mem_cons_of_mem _ hs)

theorem nodup_of_validateSchema {s : Schema} (h : validateSchema s = []) :
    (s.tables.map TableDef.name).Nodup :=
  (nodup_of_repeats (List.map_eq_nil_iff.mp (List.append_eq_nil_iff.mp h).1)).1

theorem find?_name_of_mem {ts : List TableDef} (hnd : (ts.map TableDef.name).Nodup) {t : TableDef}
    (ht : t ∈ ts) : ts.find? (fun u => u.name = t.name) = some t := by
  induction ts with
  | nil => simp at ht
  | cons u us ih =>
    rw [List.map_cons, List.nodup_cons] at hnd
    rcases List.mem_cons.mp ht with rfl | ht
    · simp
    · have hne : u.name ≠ t.name := fun he => hnd.1 (he ▸ List.mem_map_of_mem ht)
      simpa [List.find?_cons, hne] using ih hnd.2 ht

theorem find_of_mem {s : Schema} (h : validateSchema s = []) {t : TableDef} (ht : t ∈ s.tables) :
    s.find t.name = some t := find?_name_of_mem (nodup_of_validateSchema h) ht

theorem mem_of_find {s : Schema} {name : String} {t : TableDef} (h : s.find name = some t) :
    t ∈ s.tables ∧ t.name = name := by
  refine ⟨List.mem_of_find?_eq_some h, ?_⟩
  have hp := List.find?_some h
  simpa using hp

theorem pk_of_validateSchema {s : Schema} (h : validateSchema s = []) {t : TableDef}
    (ht : t ∈ s.tables) : ∃ pk, t.pk = some pk := by
  have hne := List.flatMap_eq_nil_iff.mp (List.append_eq_nil_iff.mp h).2 t ht
  have hpk : (t.columns.filter fun c => c.primaryKey).length ≠ 0 := by
    intro h0
    simp [tableErrors, h0] at hne
  obtain ⟨c, hc⟩ := List.exists_mem_of_length_pos (Nat.pos_of_ne_zero hpk)
  obtain ⟨hmem, hp⟩ := List.mem_filter.mp hc
  cases hf : t.columns.find? fun c => c.primaryKey with
  | none => exact absurd hp (List.find?_eq_none.mp hf c hmem)
  | some d => exact ⟨d.name, by simp [TableDef.pk, hf]⟩

end ForgeIndex
