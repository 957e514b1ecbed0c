import ForgeIndex.Lib.FirstWins
import ForgeIndex.Lib.KeyedOps
import ForgeIndex.Db.Buffer

/-!
# What a flush leaves in a table

A table is read through its primary key.  Each statement of `flush_table` then acts as the
operations it was made from, and the whole flush as the phases of the buffered sequence.
-/

namespace ForgeIndex

open KeyedOps

variable {V : Type} [DecidableEq V]

/-- The rows of a table by primary key. -/
def keyed (pk : String) (t : Table V) : V → Option (Tuple V) := fun k =>
  t.find? fun r => r pk = some k

/-- The key that a buffered row names; `none` for a missing or `NULL` key. -/
def Row.key (env : Env V) (table pk : String) (r : Row) : Option V :=
  env.value table pk (r.literal pk)

/-- What a buffered row does to the row of its key: insert-if-absent, set the non-key schema
columns it has, or remove. -/
def Row.act (env : Env V) (table : String) (cols : List String) (pk : String) (r : Row) :
    Act String (Option V) :=
  match r.kind with
  | .insert => .insert (tupleOf env table cols (cols.map r.literal))
  | .update => .update fun c =>
      if c ∈ cols ∧ c ≠ pk then (r.get c).map fun v => env.value table c (toSqlLiteral v) else none
  | .delete => .delete

/-- The buffered sequence as operations on keys. -/
def bufferedOps (env : Env V) (table : String) (cols : List String) (pk : String)
    (rows : List Row) : List (V × Act String (Option V)) :=
  rows.filterMap fun r => (r.key env table pk).map fun k => (k, r.act env table cols pk)

theorem find?_zip_map {α : Type} (cols : List String) (f : String → α) (c : String) :
    (cols.zip (cols.map f)).find? (fun p => p.1 = c) = if c ∈ cols then some (c, f c) else none := by
  induction cols with
  | nil => rfl
  | cons d cols ih =>
    by_cases h : d = c
    · simp [h]
    · have h' : ¬c = d := fun e => h e.symm
      simp [h, h', ih]

omit [DecidableEq V] in
theorem tupleOf_literals (env : Env V) (table : String) (cols : List String) (r : Row)
    (c : String) :
    tupleOf env table cols (cols.map r.literal) c =
      if c ∈ cols then env.value table c (r.literal c) else none := by
  unfold tupleOf
  rw [find?_zip_map]
  split_ifs <;> rfl

theorem keyed_isSome_iff {pk : String} {t : Table V} {k : V} :
    (keyed pk t k).isSome ↔ ∃ s ∈ t, s pk = some k := by
  simp [keyed, List.find?_isSome]

theorem agreeOn_singleton {pk : String} {r s : Tuple V} {k : V} (hr : r pk = some k) :
    agreeOn [pk] r s = true ↔ s pk = some k := by
  simp only [agreeOn, List.all_cons, List.all_nil, hr, Option.isSome_some, Bool.true_and,
    Bool.and_true, beq_iff_eq]
  exact eq_comm

theorem matchesKey_of_none {env : Env V} {table pk lit : String}
    (h : env.value table pk lit = none) (r : Tuple V) : matchesKey env table pk lit r = false := by
  cases hr : r pk <;> simp [matchesKey, h, hr]

theorem matchesKey_of_some {env : Env V} {table pk lit : String} {k : V}
    (h : env.value table pk lit = some k) (r : Tuple V) :
    matchesKey env table pk lit r = decide (r pk = some k) := by
  unfold matchesKey
  rw [h]
  by_cases hr : r pk = some k <;> simp [hr]

theorem keyed_insertRow {uniques : List (List String)} {pk : String} {t : Table V} {r : Tuple V}
    {k : V} (hpk : [pk] ∈ uniques) (hr : r pk = some k)
    (hfree : ∀ s ∈ t, conflicts uniques r s = true → r pk = s pk) :
    keyed pk (insertRow uniques t r) = applyOp (keyed pk t) (k, .insert r) := by
  have hiff : t.any (conflicts uniques r) = true ↔ (keyed pk t k).isSome := by
    rw [keyed_isSome_iff, List.any_eq_true]
    constructor
    · rintro ⟨s, hs, hc⟩
      exact ⟨s, hs, by rw [← hfree s hs hc, hr]⟩
    · rintro ⟨s, hs, hk⟩
      exact ⟨s, hs, List.any_eq_true.mpr ⟨[pk], hpk, (agreeOn_singleton hr).mpr hk⟩⟩
  funext k'
  unfold insertRow applyOp
  by_cases hex : (keyed pk t k).isSome
  · rw [if_pos (hiff.mpr hex)]
    obtain ⟨x, hx⟩ := Option.isSome_iff_exists.mp hex
    by_cases hk : k' = k
    · subst hk
      simp [Act.run, hx]
    · simp [Function.update_of_ne hk]
  · rw [if_neg (fun h => hex (hiff.mp h))]
    have hnone : keyed pk t k = none := by simpa using hex
    by_cases hk : k' = k
    · subst hk
      have hf : t.find? (fun s => s pk = some k') = none := hnone
      simp [keyed, Act.run, hf, hr]
    · have hk' : ¬k = k' := fun h => hk h.symm
      simp [keyed, Function.update_of_ne hk, hr, hk']

theorem keyed_insertRows {uniques : List (List String)} {pk : String} (hpk : [pk] ∈ uniques)
    (ps : List (V × Tuple V)) (t : Table V) (hkey : ∀ p ∈ ps, p.2 pk = some p.1)
    (hfree : ∀ r ∈ ps.map Prod.snd, ∀ s ∈ t ++ ps.map Prod.snd,
      conflicts uniques r s = true → r pk = s pk) :
    keyed pk ((ps.map Prod.snd).foldl (insertRow uniques) t) =
      replay (keyed pk t) (ps.map fun p => (p.1, .insert p.2)) := by
  induction ps generalizing t with
  | nil => rfl
  | cons p ps ih =>
    have hstep := keyed_insertRow (t := t) hpk (hkey p List.mem_cons_self)
      fun s hs => hfree p.2 (by simp) s (by simp [hs])
    have hsub : ∀ s ∈ insertRow uniques t p.2, s ∈ t ∨ s = p.2 := by
      intro s hs
      unfold insertRow at hs
      split_ifs at hs with h
      · exact Or.inl hs
      · simpa [or_comm] using hs
    change keyed pk ((ps.map Prod.snd).foldl _ (insertRow uniques t p.2)) =
      replay (applyOp (keyed pk t) (p.1, .insert p.2)) _
    rw [← hstep]
    refine ih _ (fun q hq => hkey q (List.mem_cons_of_mem _ hq)) ?_
    intro r hr s hs
    refine hfree r (List.mem_cons_of_mem _ hr) s ?_
    rw [List.map_cons, List.mem_append, List.mem_cons]
    rcases List.mem_append.mp hs with hs | hs
    · exact (hsub s hs).imp id Or.inl
    · exact .inr (.inr hs)

theorem keyed_update {env : Env V} {table pk : String} (lit : String)
    {sets : List (String × String)} {s : String → Option (Option V)} (hs : ∀ r c, setColumns env table sets r c = assign s r c)
    (hpk : s pk = none) (t : Table V) :
    keyed pk (t.map fun r =>
      if matchesKey env table pk lit r then setColumns env table sets r else r) =
      match env.value table pk lit with
      | some k => applyOp (keyed pk t) (k, .update s)
      | none => keyed pk t := by
  have hset (r : Tuple V) : setColumns env table sets r = assign s r := funext (hs r)
  have hkey (r : Tuple V) : assign s r pk = r pk := by simp [assign, hpk]
  funext k'
  cases hv : env.value table pk lit with
  | none =>
    simp [keyed, matchesKey_of_none hv]
  | some k =>
    simp only [matchesKey_of_some hv, hset, decide_eq_true_eq, applyOp]
    induction t with
    | nil => by_cases hk : k' = k <;> simp [keyed, Function.update_apply, hk, Act.run]
    | cons r t ih =>
      by_cases hr : r pk = some k
      · by_cases hk : k' = k
        · subst hk
          simp [keyed, hr, hkey, Act.run]
        · have hk' : ¬k = k' := fun h => hk h.symm
          simpa [keyed, hr, hkey, hk', Function.update_of_ne hk] using ih
      · by_cases hk : k' = k
        · subst hk
          simpa [keyed, hr] using ih
        · by_cases hr' : r pk = some k'
          · simp [keyed, hr', fun h : k' = k => hk h]
          · simpa [keyed, hr, hr', Function.update_of_ne hk] using ih

theorem keyed_delete (env : Env V) (table pk : String) (lits : List String) (t : Table V) :
    keyed pk (t.filter fun r => !lits.any fun l => matchesKey env table pk l r) =
      replay (keyed pk t) ((lits.filterMap (env.value table pk)).map fun k => (k, .delete)) := by
  induction lits generalizing t with
  | nil => simp [replay]
  | cons l lits ih =>
    have hsplit : (t.filter fun r => !(l :: lits).any fun l => matchesKey env table pk l r) =
        (t.filter fun r => !matchesKey env table pk l r).filter
          fun r => !lits.any fun l => matchesKey env table pk l r := by
      rw [List.filter_filter]
      congr 1
      funext r
      simp [Bool.and_comm]
    rw [hsplit, ih]
    cases hv : env.value table pk l with
    | none =>
      simp [matchesKey_of_none hv, hv]
    | some k =>
      have hone : keyed pk (t.filter fun r => !decide (r pk = some k)) =
          applyOp (keyed pk t) (k, .delete) := by
        funext k'
        unfold keyed applyOp
        rw [List.find?_filter]
        by_cases hk : k' = k
        · subst hk
          simp [Act.run]
        · rw [Function.update_of_ne hk]
          congr 1
          funext r
          by_cases hr : r pk = some k' <;> simp [hr, hk]
      simp only [matchesKey_of_some hv, hone, hv, List.filterMap_cons, List.map_cons]
      rfl

section Phases

variable {env : Env V} {d : TableDef} {pk : String}

/-- The rows that the inserts of a buffer denote. -/
def insertedTuples (env : Env V) (d : TableDef) (rows : List Row) : List (Tuple V) :=
  (WriteBuffer.ofKind .insert rows).map fun r =>
    tupleOf env d.name d.columnNames (d.columnNames.map r.literal)

/-- What a table holds once the rows have been inserted. -/
def grown (env : Env V) (d : TableDef) (rows : List Row) (t : Table V) : Table V :=
  FirstWins.insertAllNew (conflicts d.uniqueSets) t (insertedTuples env d rows)

/-- No unique index sets an inserted row against a row of another key. -/
def KeyConflictsOnly (env : Env V) (d : TableDef) (pk : String) (t : Table V) (rows : List Row) :
    Prop :=
  ∀ r ∈ insertedTuples env d rows, ∀ s ∈ t ++ insertedTuples env d rows,
    conflicts d.uniqueSets r s = true → r pk = s pk

instance (env : Env V) (d : TableDef) (pk : String) (t : Table V) (rows : List Row) :
    Decidable (KeyConflictsOnly env d pk t rows) :=
  inferInstanceAs (Decidable (∀ r ∈ insertedTuples env d rows,
    ∀ s ∈ t ++ insertedTuples env d rows, conflicts d.uniqueSets r s = true → r pk = s pk))

theorem map_snd_filterMap {α β γ : Type} {f : α → Option β} {g : α → γ} {l : List α}
    (h : ∀ a ∈ l, ∃ b, f a = some b) :
    (l.filterMap fun a => (f a).map fun b => (b, g a)).map Prod.snd = l.map g := by
  induction l with
  | nil => rfl
  | cons a l ih =>
    obtain ⟨b, hb⟩ := h a List.mem_cons_self
    simpa [hb] using ih fun c hc => h c (List.mem_cons_of_mem _ hc)

omit [DecidableEq V] in
theorem tupleOf_key (hpk : d.pk = some pk) (r : Row) :
    tupleOf env d.name d.columnNames (d.columnNames.map r.literal) pk = r.key env d.name pk := by
  rw [tupleOf_literals, if_pos (TableDef.pk_mem_columnNames hpk)]
  rfl

theorem insertStmt_effect (hd : env.schema.find d.name = some d) (hpk : d.pk = some pk)
    {tables : String → Table V} {rows : List Row} {table : String} {t : Table V}
    (h : (WriteBuffer.insertStmt d.name d.columnNames rows).effect env tables = some (table, t)) :
    table = d.name ∧
      t = (rows.map fun r => tupleOf env d.name d.columnNames (d.columnNames.map r.literal)).foldl
        (insertRow d.uniqueSets) (tables d.name) ∧
      ∀ r ∈ rows, ∃ k, r.key env d.name pk = some k := by
  obtain ⟨d', hd', rfl, rfl, hnn⟩ := effect_insert h
  rw [hd] at hd'
  cases hd'
  refine ⟨rfl, by rw [List.map_map]; rfl, fun r hr => ?_⟩
  rw [← tupleOf_key hpk, ← Option.isSome_iff_exists]
  exact hnn _ (List.mem_map_of_mem hr) pk (TableDef.pk_mem_notNull hpk)

theorem ofKind_of_forall {k : Row.Kind} {rows : List Row} (h : ∀ r ∈ rows, r.kind = k) :
    WriteBuffer.ofKind k rows = rows :=
  List.filter_eq_self.mpr fun r hr => by simp [h r hr]

omit [DecidableEq V] in
theorem insertedTuples_of_inserts {rows : List Row} (h : ∀ r ∈ rows, r.kind = .insert) :
    insertedTuples env d rows = rows.map fun r =>
      tupleOf env d.name d.columnNames (d.columnNames.map r.literal) := by
  unfold insertedTuples
  rw [ofKind_of_forall h]

omit [DecidableEq V] in
theorem insertedTuples_ofKind (rows : List Row) :
    insertedTuples env d (WriteBuffer.ofKind .insert rows) = insertedTuples env d rows :=
  insertedTuples_of_inserts fun _ hr => WriteBuffer.kind_of_mem_ofKind hr

/-- The inserts of a flush that went through: the table has grown by them, and all have a key. -/
theorem flushInserts_grown (hd : env.schema.find d.name = some d) (hpk : d.pk = some pk)
    {rows : List Row} {w w' : World V} (hkind : ∀ r ∈ rows, r.kind = .insert)
    (h : WriteBuffer.flushInserts env d.name d.columnNames rows w = (.ok (), w')) :
    w'.tables d.name = grown env d rows (w.tables d.name) ∧
      ∀ r ∈ rows, ∃ k, r.key env d.name pk = some k := by
  unfold grown
  rw [insertedTuples_of_inserts hkind]
  unfold WriteBuffer.flushInserts at h
  split_ifs at h with hnone
  · rw [List.isEmpty_iff] at hnone
    cases h
    subst hnone
    exact ⟨rfl, fun r hr => absurd hr List.not_mem_nil⟩
  · obtain ⟨table, t, heff, hw⟩ := execute_ok (Proc.mapErr_ok_iff.mp h)
    obtain ⟨rfl, ht, hkey⟩ := insertStmt_effect hd hpk heff
    rw [hw]
    exact ⟨(Function.update_self _ _ _).trans ht, hkey⟩

theorem flushInserts_ok (hd : env.schema.find d.name = some d) (hpk : d.pk = some pk)
    {rows : List Row} {w w' : World V} (hkind : ∀ r ∈ rows, r.kind = .insert)
    (hfree : KeyConflictsOnly env d pk (w.tables d.name) rows)
    (h : WriteBuffer.flushInserts env d.name d.columnNames rows w = (.ok (), w')) :
    keyed pk (w'.tables d.name) = replay (keyed pk (w.tables d.name))
      (bufferedOps env d.name d.columnNames pk rows) := by
  obtain ⟨ht, hkey⟩ := flushInserts_grown hd hpk hkind h
  let tup := fun r : Row => tupleOf env d.name d.columnNames (d.columnNames.map r.literal)
  let ps := rows.filterMap fun r => (r.key env d.name pk).map fun k => (k, tup r)
  have hps : ps.map Prod.snd = insertedTuples env d rows :=
    (map_snd_filterMap hkey).trans (insertedTuples_of_inserts hkind).symm
  have hops : bufferedOps env d.name d.columnNames pk rows =
      ps.map fun p => (p.1, .insert p.2) := by
    simp only [bufferedOps, ps, List.map_filterMap, Option.map_map]
    refine List.filterMap_congr ?_
    intro r hr
    have hact : r.act env d.name d.columnNames pk = .insert (tup r) := by
      simp [Row.act, hkind r hr, tup]
    rw [hact]
    rfl
  rw [ht, hops]
  unfold grown
  rw [← hps]
  refine keyed_insertRows (TableDef.pk_mem_uniqueSets hpk) ps _ ?_ ?_
  · intro p hp
    obtain ⟨r, -, hr⟩ := List.mem_filterMap.mp hp
    obtain ⟨k, hk, rfl⟩ := Option.map_eq_some_iff.mp hr
    exact (tupleOf_key hpk r).trans hk
  · rw [hps]
    exact hfree

theorem find?_updateSets (cols : List String) (row : Row) (c : String) :
    (WriteBuffer.updateSets cols pk row).find? (fun p => p.1 = c) =
      if c ∈ cols ∧ c ≠ pk then (row.get c).map fun v => (c, Row.toSqlLiteral v) else none := by
  unfold WriteBuffer.updateSets
  induction cols with
  | nil => simp
  | cons a cols ih =>
    by_cases ha : a = pk
    · subst ha
      by_cases hc : c = a
      · subst hc
        simpa using ih
      · simpa [hc] using ih
    · by_cases hac : a = c
      · subst hac
        cases hr : row.get a with
        | none =>
          simp only [List.filter_cons, ne_eq, ha, not_false_eq_true, decide_true, if_true,
            List.filterMap_cons, hr, Option.map_none, ih]
          split_ifs <;> rfl
        | some v => simp [ha, hr]
      · have hca : ¬c = a := fun h => hac h.symm
        cases hr : row.get a with
        | none => simpa [List.filter_cons, ha, hr, hca] using ih
        | some v => simpa [List.filter_cons, ha, hr, hca, hac] using ih

omit [DecidableEq V] in
theorem setColumns_updateSets (table : String) (cols : List String) (row : Row) (r : Tuple V)
    (c : String) :
    setColumns env table (WriteBuffer.updateSets cols pk row) r c =
      assign (fun c => if c ∈ cols ∧ c ≠ pk then
        (row.get c).map fun v => env.value table c (Row.toSqlLiteral v) else none) r c := by
  unfold setColumns assign
  rw [find?_updateSets]
  by_cases hc : c ∈ cols ∧ c ≠ pk
  · simp only [if_pos hc]
    cases row.get c <;> rfl
  · simp only [if_neg hc]
    rfl

theorem flushUpdate_ok {row : Row} {w w' : World V} (hkind : row.kind = .update)
    (h : WriteBuffer.flushUpdate env d.name d.columnNames pk row w = (.ok (), w')) :
    keyed pk (w'.tables d.name) = replay (keyed pk (w.tables d.name))
      (bufferedOps env d.name d.columnNames pk [row]) := by
  have hops : replay (keyed pk (w.tables d.name))
      (bufferedOps env d.name d.columnNames pk [row]) =
      match env.value d.name pk (row.literal pk) with
      | some k => applyOp (keyed pk (w.tables d.name)) (k, .update fun c =>
          if c ∈ d.columnNames ∧ c ≠ pk then
            (row.get c).map fun v => env.value d.name c (Row.toSqlLiteral v) else none)
      | none => keyed pk (w.tables d.name) := by
    have hkey : row.key env d.name pk = env.value d.name pk (row.literal pk) := rfl
    cases hv : env.value d.name pk (row.literal pk) <;>
      simp [bufferedOps, hkey, hv, Row.act, hkind, replay]
  rw [hops, ← keyed_update (row.literal pk) (setColumns_updateSets d.name d.columnNames row)
    (by simp)]
  unfold WriteBuffer.flushUpdate at h
  split at h
  · -- no column to set: the statement that is not sent would not change a row
    rename_i he
    rw [List.isEmpty_iff] at he
    cases h
    have hid (r : Tuple V) : setColumns env d.name (WriteBuffer.updateSets d.columnNames pk row) r = r := by
      funext c
      simp [setColumns, he]
    simp [hid]
  · obtain ⟨table, t, heff, hw⟩ := execute_ok (Proc.mapErr_ok_iff.mp h)
    obtain ⟨rfl, rfl⟩ := effect_update heff
    rw [hw]
    exact congrArg (keyed pk) (Function.update_self _ _ _)

omit [DecidableEq V] in
theorem bufferedOps_cons (table : String) (cols : List String) (r : Row) (rows : List Row) :
    bufferedOps env table cols pk (r :: rows) =
      bufferedOps env table cols pk [r] ++ bufferedOps env table cols pk rows := by
  cases h : r.key env table pk <;> simp [bufferedOps, h]

theorem flushUpdates_ok {rows : List Row} {w w' : World V} (hkind : ∀ r ∈ rows, r.kind = .update)
    (h : WriteBuffer.flushUpdates env d.name d.columnNames pk rows w = (.ok (), w')) :
    keyed pk (w'.tables d.name) = replay (keyed pk (w.tables d.name))
      (bufferedOps env d.name d.columnNames pk rows) := by
  induction rows generalizing w with
  | nil =>
    cases h
    rfl
  | cons r rows ih =>
    obtain ⟨w₁, hr, hrest⟩ := Proc.forEach_cons_ok_iff.mp h
    rw [bufferedOps_cons, replay_append, ← flushUpdate_ok (hkind r List.mem_cons_self) hr]
    exact ih (fun r hr => hkind r (List.mem_cons_of_mem _ hr)) hrest

theorem flushDeletes_ok {rows : List Row} {w w' : World V} (hkind : ∀ r ∈ rows, r.kind = .delete)
    (h : WriteBuffer.flushDeletes env d.name pk rows w = (.ok (), w')) :
    keyed pk (w'.tables d.name) = replay (keyed pk (w.tables d.name))
      (bufferedOps env d.name d.columnNames pk rows) := by
  have hops : bufferedOps env d.name d.columnNames pk rows =
      ((WriteBuffer.deleteKeys pk rows).filterMap (env.value d.name pk)).map
        fun k => (k, .delete) := by
    unfold bufferedOps WriteBuffer.deleteKeys
    rw [List.filterMap_filterMap, List.map_filterMap]
    refine List.filterMap_congr ?_
    intro r hr
    have hact : r.act env d.name d.columnNames pk = .delete := by simp [Row.act, hkind r hr]
    rw [hact]
    cases hg : r.get pk with
    | none => simp [Row.key, Row.literal, hg, env.value_null]
    | some v => simp [Row.key, Row.literal, hg]
  rw [hops, ← keyed_delete]
  unfold WriteBuffer.flushDeletes at h
  split at h
  · rename_i he
    rw [List.isEmpty_iff] at he
    cases h
    simp [he]
  · obtain ⟨table, t, heff, hw⟩ := execute_ok (Proc.mapErr_ok_iff.mp h)
    obtain ⟨rfl, rfl⟩ := effect_delete heff
    rw [hw]
    exact congrArg (keyed pk) (Function.update_self _ _ _)

omit [DecidableEq V] in
theorem bufferedOps_ofKind (table : String) (cols : List String) (rows : List Row)
    (k : Row.Kind) (n : ℕ) (hn : ∀ r : Row, r.kind = k ↔ (r.act env table cols pk).rank = n) :
    bufferedOps env table cols pk (WriteBuffer.ofKind k rows) =
      (bufferedOps env table cols pk rows).filter fun p => p.2.rank = n := by
  induction rows with
  | nil => rfl
  | cons r rows ih =>
    rw [bufferedOps_cons, List.filter_append, ← ih]
    by_cases hr : r.kind = k
    · have hcons : WriteBuffer.ofKind k (r :: rows) = r :: WriteBuffer.ofKind k rows := by
        simp [WriteBuffer.ofKind, hr]
      rw [hcons, bufferedOps_cons]
      cases hk : r.key env table pk <;> simp [bufferedOps, hk, (hn r).mp hr]
    · have hskip : WriteBuffer.ofKind k (r :: rows) = WriteBuffer.ofKind k rows := by
        simp [WriteBuffer.ofKind, hr]
      have hrank : ¬(r.act env table cols pk).rank = n := fun h => hr ((hn r).mpr h)
      rw [hskip]
      cases hk : r.key env table pk <;> simp [bufferedOps, hk, hrank]

omit [DecidableEq V] in
theorem bufferedOps_phases (table : String) (cols : List String) (rows : List Row) :
    phases (bufferedOps env table cols pk rows) =
      bufferedOps env table cols pk (WriteBuffer.ofKind .insert rows) ++
        bufferedOps env table cols pk (WriteBuffer.ofKind .update rows) ++
        bufferedOps env table cols pk (WriteBuffer.ofKind .delete rows) := by
  have hrank (r : Row) : (r.act env table cols pk).rank =
      match r.kind with | .insert => 0 | .update => 1 | .delete => 2 := by
    unfold Row.act
    cases r.kind <;> rfl
  unfold phases
  rw [bufferedOps_ofKind table cols rows .insert 0, bufferedOps_ofKind table cols rows .update 1,
    bufferedOps_ofKind table cols rows .delete 2] <;>
  · intro r
    rw [hrank]
    cases r.kind <;> simp

theorem flushRows_ok {b : WriteBuffer} (hcols : b.tableColumns d.name = some d.columnNames)
    (hpkb : b.pkColumns d.name = some pk) (hd : env.schema.find d.name = some d)
    (hpk : d.pk = some pk) {rows : List Row} {w w' : World V}
    (hfree : KeyConflictsOnly env d pk (w.tables d.name) rows)
    (h : WriteBuffer.flushRows b env d.name rows w = (.ok (), w')) :
    keyed pk (w'.tables d.name) = replay (keyed pk (w.tables d.name))
      (phases (bufferedOps env d.name d.columnNames pk rows)) := by
  obtain ⟨_, w₁, hins, h⟩ := Proc.bind_ok_iff.mp h
  obtain ⟨_, w₂, hupd, hdel⟩ := Proc.bind_ok_iff.mp h
  simp only [WriteBuffer.insertPhase, hcols] at hins
  simp only [WriteBuffer.updatePhase, hcols, hpkb] at hupd
  simp only [WriteBuffer.deletePhase, hpkb] at hdel
  have hfree' : KeyConflictsOnly env d pk (w.tables d.name) (WriteBuffer.ofKind .insert rows) := by
    unfold KeyConflictsOnly
    rw [insertedTuples_ofKind]
    exact hfree
  rw [bufferedOps_phases, replay_append, replay_append,
    ← flushInserts_ok hd hpk (fun r hr => WriteBuffer.kind_of_mem_ofKind hr) hfree' hins,
    ← flushUpdates_ok (fun r hr => WriteBuffer.kind_of_mem_ofKind hr) hupd,
    ← flushDeletes_ok (fun r hr => WriteBuffer.kind_of_mem_ofKind hr) hdel]

/-- `flush_table` on a table of an accepted schema: whatever was buffered, the table ends up
with the phases of the buffered operations applied to it. -/
theorem flushTable_ok (hs : validateSchema env.schema = []) (hd : d ∈ env.schema.tables)
    (hpk : d.pk = some pk) {w w' : World V} {n : ℕ}
    (hfree : KeyConflictsOnly env d pk (w.tables d.name) (WriteBuffer.rowsOf w d.name))
    (h : WriteBuffer.flushTable (WriteBuffer.new env.schema) env d.name w = (.ok n, w')) :
    keyed pk (w'.tables d.name) = replay (keyed pk (w.tables d.name))
      (phases (bufferedOps env d.name d.columnNames pk (WriteBuffer.rowsOf w d.name))) := by
  obtain ⟨hcols, hpkb⟩ := WriteBuffer.new_of_mem hs hd hpk
  obtain ⟨-, w₀, w₁, hstart, -, hrows, hend, -⟩ := WriteBuffer.flushTable_rows h
  rw [← hstart] at hfree ⊢
  rw [hend]
  exact flushRows_ok hcols hpkb (find_of_mem hs hd) hpk hfree hrows

/-- A flush leaves what the buffered operations leave in the order they were issued, exactly
when no key is inserted after its last delete and no update of an absent key ends up in the row
inserted after it. -/
theorem flushTable_in_order_iff (hs : validateSchema env.schema = [])
    (hd : d ∈ env.schema.tables) (hpk : d.pk = some pk) {w w' : World V} {n : ℕ}
    (hfree : KeyConflictsOnly env d pk (w.tables d.name) (WriteBuffer.rowsOf w d.name))
    (h : WriteBuffer.flushTable (WriteBuffer.new env.schema) env d.name w = (.ok n, w')) :
    keyed pk (w'.tables d.name) = replay (keyed pk (w.tables d.name))
        (bufferedOps env d.name d.columnNames pk (WriteBuffer.rowsOf w d.name)) ↔
      ∀ k, ¬LateInsert (onKey k (bufferedOps env d.name d.columnNames pk
          (WriteBuffer.rowsOf w d.name))) ∧
        ¬EarlyUpdate (keyed pk (w.tables d.name) k) (onKey k (bufferedOps env d.name d.columnNames
          pk (WriteBuffer.rowsOf w d.name))) := by
  rw [flushTable_ok hs hd hpk hfree h]
  exact replay_phases_iff _ _

/-- `accounts(id, balance)` with key `id`. -/
def accountsTable : TableDef where
  name := "accounts"
  columns := [{ name := "id", primaryKey := true }, { name := "balance" }]

def accountRow (id balance : String) : Row :=
  (Row.new.insert "id" (.text id)).insert "balance" (.text balance)

def removedRow (id : String) : Row :=
  { Row.new.insert "id" (.text id) with operation := some "DELETE" }

/-- A process with rows buffered for one table of an empty database. -/
def bufferedWorld (table : String) (rows : List Row) : World String :=
  { World.fresh String with buffers := IndexMap.empty.insert table rows }

/-- Delete, then insert again: the row is lost. -/
theorem flushTable_in_order_iff_reinsert :
    let env := plainEnv ⟨[accountsTable]⟩
    let w := bufferedWorld "accounts" [removedRow "a", accountRow "a" "5"]
    keyed "id" ((WriteBuffer.flushTable (WriteBuffer.new env.schema) env "accounts" w).2.tables
        "accounts") = replay (keyed "id" (w.tables "accounts"))
          (bufferedOps env "accounts" accountsTable.columnNames "id"
            (WriteBuffer.rowsOf w "accounts")) ↔
      ∀ k, ¬LateInsert (onKey k (bufferedOps env "accounts" accountsTable.columnNames "id"
          (WriteBuffer.rowsOf w "accounts"))) ∧
        ¬EarlyUpdate (keyed "id" (w.tables "accounts") k) (onKey k (bufferedOps env "accounts"
          accountsTable.columnNames "id" (WriteBuffer.rowsOf w "accounts"))) :=
  flushTable_in_order_iff (d := accountsTable) (n := 2) (by decide) (List.mem_singleton_self _)
    (by decide) (by decide) rfl

/-- A flush does not keep the order of a delete and a later insert of the same key: the row that was
inserted last is deleted. -/
theorem flushTable_not_in_order :
    ¬∀ (env : Env String) (d : TableDef) (pk : String) (w w' : World String) (n : ℕ),
      validateSchema env.schema = [] → d ∈ env.schema.tables → d.pk = some pk →
      ¬PhaseOrdered (bufferedOps env d.name d.columnNames pk (WriteBuffer.rowsOf w d.name)) →
      WriteBuffer.flushTable (WriteBuffer.new env.schema) env d.name w = (.ok n, w') →
      keyed pk (w'.tables d.name) = replay (keyed pk (w.tables d.name))
        (bufferedOps env d.name d.columnNames pk (WriteBuffer.rowsOf w d.name)) := by
  intro h
  have hrun := h (plainEnv ⟨[accountsTable]⟩) accountsTable "id"
    (bufferedWorld "accounts" [removedRow "a", accountRow "a" "5"]) _ 2
    (by decide) (List.mem_singleton_self _) (by decide) (by decide) rfl
  have ha := congrArg Option.isSome (congrFun hrun "a")
  revert ha
  decide

/-- A flush of a phase-ordered buffer is the buffered sequence. -/
theorem flushTable_phase_ordered (hs : validateSchema env.schema = [])
    (hd : d ∈ env.schema.tables) (hpk : d.pk = some pk) {w w' : World V} {n : ℕ}
    (hfree : KeyConflictsOnly env d pk (w.tables d.name) (WriteBuffer.rowsOf w d.name))
    (hord : PhaseOrdered (bufferedOps env d.name d.columnNames pk (WriteBuffer.rowsOf w d.name)))
    (h : WriteBuffer.flushTable (WriteBuffer.new env.schema) env d.name w = (.ok n, w')) :
    keyed pk (w'.tables d.name) = replay (keyed pk (w.tables d.name))
      (bufferedOps env d.name d.columnNames pk (WriteBuffer.rowsOf w d.name)) := by
  rw [flushTable_ok hs hd hpk hfree h]
  exact replay_phases_of_ordered hord _

theorem flushTable_phase_ordered_two_keys :
    let env := plainEnv ⟨[accountsTable]⟩
    let w := bufferedWorld "accounts" [accountRow "a" "5", removedRow "b", removedRow "a"]
    keyed "id" ((WriteBuffer.flushTable (WriteBuffer.new env.schema) env "accounts" w).2.tables
        "accounts") = replay (keyed "id" (w.tables "accounts"))
          (bufferedOps env "accounts" accountsTable.columnNames "id"
            (WriteBuffer.rowsOf w "accounts")) :=
  flushTable_phase_ordered (d := accountsTable) (n := 3) (by decide) (List.mem_singleton_self _)
    (by decide) (by decide) (by decide) rfl

/-- `accounts` with a unique index on `balance`. -/
def uniqueTable : TableDef :=
  { accountsTable with indexes := [{ columns := ["balance"], unique := true }] }

/-- With a unique index a phase-ordered buffer is not enough: the batched insert skips a row that
conflicts with one the sequence has already deleted. -/
theorem flushTable_phase_ordered_unique :
    ¬∀ (env : Env String) (d : TableDef) (pk : String) (w w' : World String) (n : ℕ),
      validateSchema env.schema = [] → d ∈ env.schema.tables → d.pk = some pk →
      PhaseOrdered (bufferedOps env d.name d.columnNames pk (WriteBuffer.rowsOf w d.name)) →
      WriteBuffer.flushTable (WriteBuffer.new env.schema) env d.name w = (.ok n, w') →
      keyed pk (w'.tables d.name) = replay (keyed pk (w.tables d.name))
        (bufferedOps env d.name d.columnNames pk (WriteBuffer.rowsOf w d.name)) := by
  intro h
  have hrun := h (plainEnv ⟨[uniqueTable]⟩) uniqueTable "id"
    (bufferedWorld "accounts" [accountRow "a" "5", removedRow "a", accountRow "b" "5"]) _ 3
    (by decide) (List.mem_singleton_self _) (by decide) (by decide) rfl
  have hb := congrArg Option.isSome (congrFun hrun "b")
  revert hb
  decide

end Phases

end ForgeIndex
