import ForgeIndex.Config.CreateSql
import ForgeIndex.Db.Rollback

/-!
# Rollback and column types

The replay reads every column as a `String`, and what does not read as one becomes `NULL`.  A row
that was deleted or overwritten comes back as it was when its values lie in `TEXT` columns.
-/

namespace ForgeIndex

open KeyedOps

variable {V : Type}

/-- What the driver and Postgres do with the values of a row: a `String` can be read from `TEXT`
columns and from no others, and a text is denoted by itself between quotes if the quotes in it are
doubled, and only then. -/
structure DriverReads (env : Env V) (d : TableDef) (pk : String) (r : Tuple V) : Prop where
  reads : ∀ col ∈ d.columns, ∀ v, r col.name = some v →
    ((env.text v).isSome ↔ col.colType.toSqlType = "TEXT")
  doubled : ∀ c v str, r c = some v → env.text v = some str →
    env.value d.name c ("'" ++ Row.doubleQuotes str ++ "'") = some v
  undoubled : ∀ v str, r pk = some v → env.text v = some str → '\'' ∈ str.toList →
    env.value d.name pk ("'" ++ str ++ "'") ≠ some v

/-- The values of the row lie in `TEXT` columns. -/
def AllText (d : TableDef) (r : Tuple V) : Prop :=
  ∀ col ∈ d.columns, (r col.name).isSome → col.colType.toSqlType = "TEXT"

variable [DecidableEq V]

/-- The row `r` was deleted or overwritten, and the change recorded with `record_flush`. -/
structure RecordedLoss (env : Env V) (d : TableDef) (pk : String) (r : Tuple V) (c : RowChange V)
    (w w' : World V) : Prop where
  before : c.before = some r
  finds : keyed pk (w.tables d.name) c.key = some r
  leaves : keyed pk (w'.tables d.name) = Function.update (keyed pk (w.tables d.name)) c.key c.after
  stored : StoredTable d pk (w'.tables d.name)
  others : ∀ name, name ≠ d.name → w'.tables name = w.tables name
  recorded : RecordedBy env d c w w'

/-- The rollback from block `b` returns, and every column of the row has its value again. -/
def Restores (env : Env V) (d : TableDef) (pk : String) (b : UInt64) (k : V) (r : Tuple V)
    (w : World V) : Prop :=
  ∃ n w', ReorgStore.rollbackFromBlock env d.name b pk d.columnNames w = (.ok n, w') ∧
    keyed pk (w'.tables d.name) k = some r

section Columns

variable {env : Env V} {d : TableDef} {pk : String} {r : Tuple V} {s : ShadowRow V} {c : String}

omit [DecidableEq V] in
theorem readable_of_denotes (hs : s.columns = r) (h : Denotes env d s r c) (hc : c ∈ d.columnNames)
    {v : V} (hv : r c = some v) : (env.text v).isSome := by
  unfold Denotes ReorgStore.replayLiteral ReorgStore.readText at h
  rw [if_pos hc, hs, hv, Option.bind_some] at h
  cases htext : env.text v with
  | some str => rfl
  | none =>
    rw [htext] at h
    have hnull := env.value_null d.name c
    exact absurd (h.symm.trans hnull) (by simp)

omit [DecidableEq V] in
theorem denotes_of_allText (hdriver : DriverReads env d pk r) (htext : AllText d r)
    (hs : s.columns = r) (hc : c ∈ d.columnNames) : Denotes env d s r c := by
  unfold Denotes ReorgStore.replayLiteral ReorgStore.readText
  rw [if_pos hc, hs]
  cases hv : r c with
  | none => exact env.value_null _ _
  | some v =>
    obtain ⟨col, hcol, rfl⟩ := List.mem_map.mp hc
    have hread := (hdriver.reads col hcol v hv).mpr (htext col hcol (by rw [hv]; rfl))
    obtain ⟨str, hstr⟩ := Option.isSome_iff_exists.mp hread
    rw [Option.bind_some, hstr]
    exact hdriver.doubled _ v str hv hstr

omit [DecidableEq V] in
/-- The types of a row whose literals, the key's apart, denote its values, and whose key is read. -/
theorem allText_of_denotes (hdriver : DriverReads env d pk r) (hs : s.columns = r)
    (hden : ∀ c ∈ d.columnNames, c ≠ pk → Denotes env d s r c) {k : V} (hk : r pk = some k)
    (hread : (env.text k).isSome) : AllText d r := by
  intro col hcol hsome
  obtain ⟨v, hv⟩ := Option.isSome_iff_exists.mp hsome
  apply (hdriver.reads col hcol v hv).mp
  by_cases hpk : col.name = pk
  · rw [hpk, hk] at hv
    cases hv
    exact hread
  · have hmem : col.name ∈ d.columnNames := List.mem_map_of_mem hcol
    exact readable_of_denotes hs (hden _ hmem hpk) hmem hv

end Columns

section Single

variable {env : Env V} {d : TableDef} {pk : String} {w : World V} {c : RowChange V} {b : UInt64}
  {low : List (ShadowRow V)}

omit [DecidableEq V] in
theorem selectRows_single (hb : b.toNat ≤ c.block) (hlt : c.block < 2 ^ 63)
    (hlow : ∀ s ∈ low, s.blockNumber < b.toInt64) {rows : List (ShadowRow V)}
    (hrows : rows.Perm (low ++ [shadowOf c])) :
    ReorgStore.selectRows b.toInt64 rows = [shadowOf c] := by
  have hge : ∀ c' ∈ [c], b.toNat ≤ c'.block := by simpa using hb
  obtain ⟨l, hl, -, hselect⟩ := selectRows_shadow (by omega) hlow hge (by simpa using hlt) hrows
  rw [hselect, List.perm_singleton.mp hl]
  rfl

/-- What a rollback over one shadow row leaves in the tables is what its replay leaves. -/
theorem rollback_single_iff (hd : env.schema.find d.name = some d)
    (hfate : ∀ n, env.fate n = .executed) (hb : b.toNat ≤ c.block) (hlt : c.block < 2 ^ 63)
    (hlow : ∀ s ∈ low, s.blockNumber < b.toInt64)
    (hshadow : w.shadow d.name = low ++ [shadowOf c]) (P : (String → Table V) → Prop) :
    (∃ n w', ReorgStore.rollbackFromBlock env d.name b pk d.columnNames w = (.ok n, w') ∧
      P w'.tables) ↔
    ∃ w₁, ReorgStore.replayRow env d.name pk d.columnNames (shadowOf c)
        { w with clock := w.clock + 1 } = (.ok (), w₁) ∧ P w₁.tables := by
  have hselect : ReorgStore.selectRows b.toInt64 (env.scan (w.clock + 1) (w.shadow d.name)) =
      [shadowOf c] := by
    apply selectRows_single hb hlt hlow
    rw [← hshadow]
    exact env.scan_perm _ _
  constructor
  · intro ⟨n, w', hrun, hP⟩
    obtain ⟨w₁, hloop, htables, -⟩ := ReorgStore.rollbackFromBlock_ok hrun
    rw [hselect, Proc.forEach_singleton] at hloop
    exact ⟨w₁, hloop, by rw [← htables]; exact hP⟩
  · intro ⟨w₁, hloop, hP⟩
    rw [← Proc.forEach_singleton (ReorgStore.replayRow env d.name pk d.columnNames)] at hloop
    exact ⟨_, _, ReorgStore.rollbackFromBlock_of_replay hd hfate hselect hloop, hP⟩

end Single

section Restores

variable {env : Env V} {d : TableDef} {pk : String} {r : Tuple V} {c : RowChange V} {b : UInt64}
  {w w' w₁ : World V}

theorem RecordedLoss.image (h : RecordedLoss env d pk r c w w') : c.image = some r := by
  unfold RowChange.image
  rw [h.before]
  rfl

theorem RecordedLoss.shadow_columns (h : RecordedLoss env d pk r c w w') :
    (shadowOf c).columns = r := by
  unfold shadowOf
  rw [h.image]
  rfl

/-- The undo of the change brings back the rows that were there, so no constraint refuses it. -/
theorem RecordedLoss.allowed (h : RecordedLoss env d pk r c w w') (hpk : d.pk = some pk)
    (hw : StoredTable d pk (w.tables d.name)) (hadm : Admitted env d w (w.tables d.name))
    {u : World V} (hu : u.tables = w'.tables) :
    Allowed env d pk (c.key, c.undo) u ∧
      applyOp (keyed pk (u.tables d.name)) (c.key, c.undo) = keyed pk (w.tables d.name) := by
  have hback : applyOp (keyed pk (u.tables d.name)) (c.key, c.undo) =
      keyed pk (w.tables d.name) := by
    rw [hu, h.leaves]
    unfold applyOp
    rw [Function.update_self, Function.update_idem]
    apply Function.update_eq_self_iff.mpr
    rw [h.finds]
    cases ha : c.after with
    | none => simp [UndoLog.Change.undo, h.before, ha, Act.run]
    | some r' => simp [UndoLog.Change.undo, h.before, ha, Act.run]
  refine ⟨fun t ht htable => ?_, hback⟩
  have hperm := hw.perm_of_keyed_eq hpk ht (htable.trans hback).symm
  refine (hadm.perm hperm).of_others fun name hname => ?_
  rw [hu]
  exact h.others name hname

theorem RecordedLoss.replay_restores (h : RecordedLoss env d pk r c w w')
    (hd : env.schema.find d.name = some d) (hpk : d.pk = some pk)
    (hfate : ∀ n, env.fate n = .executed) (hw : StoredTable d pk (w.tables d.name))
    (hadm : Admitted env d w (w.tables d.name)) (hdriver : DriverReads env d pk r)
    (htext : AllText d r)
    (hkey : c.after.isSome → (∃ col ∈ d.columnNames, col ≠ pk) → QuoteFree env c.key)
    {u : World V} (hu : u.tables = w'.tables) :
    ∃ u', ReorgStore.replayRow env d.name pk d.columnNames (shadowOf c) u = (.ok (), u') ∧
      keyed pk (u'.tables d.name) c.key = some r := by
  obtain ⟨hmem, hk⟩ := keyed_eq_some h.finds
  obtain ⟨hallowed, hback⟩ := h.allowed hpk hw hadm hu
  have hu' : StoredTable d pk (u.tables d.name) := by
    rw [hu]
    exact h.stored
  have hden : ∀ col ∈ d.columnNames, Denotes env d (shadowOf c) r col := fun col hcol =>
    denotes_of_allText hdriver htext h.shadow_columns hcol
  have hdone {u' : World V} (happlied : Applied d pk (c.key, c.undo) u u') :
      keyed pk (u'.tables d.name) c.key = some r := by
    rw [happlied.table, hback, h.finds]
  have hop : (shadowOf c).operation = c.operation.inverse := rfl
  unfold ReorgStore.replayRow
  rw [hop]
  cases ha : c.after with
  | none =>
    have hop' : c.operation = .delete := by simp [RowChange.operation, h.before, ha]
    have hundo : c.undo = .insert r := by simp [UndoLog.Change.undo, h.before, ha]
    rw [hundo] at hallowed hdone
    obtain ⟨u', hrun, happlied⟩ := replayInsert_applied hd hpk hfate hu' (hw.row r hmem) hk hden
      hallowed
    rw [hop']
    exact ⟨u', hrun, hdone happlied⟩
  | some r' =>
    have hop' : c.operation = .update := by simp [RowChange.operation, h.before, ha]
    have hundo : c.undo = .update fun x => some (r x) := by
      simp [UndoLog.Change.undo, h.before, ha]
    rw [hundo] at hallowed hdone
    have hpkcol := TableDef.pk_mem_columnNames hpk
    obtain ⟨str, hstr⟩ := Option.isSome_iff_exists.mp
      (readable_of_denotes h.shadow_columns (hden pk hpkcol) hpkcol hk)
    have hread : ReorgStore.readText env d.columnNames (shadowOf c) pk = some str := by
      unfold ReorgStore.readText
      rw [if_pos hpkcol, h.shadow_columns, hk, Option.bind_some, hstr]
    have hvalue (hcols : ∃ col ∈ d.columnNames, col ≠ pk) :
        env.value d.name pk ("'" ++ str ++ "'") = some c.key := by
      have hplain := hkey (by rw [ha]; rfl) hcols str hstr
      rw [← doubleQuotes_of_quoteFree hplain]
      exact hdriver.doubled pk c.key str hk hstr
    obtain ⟨u', hrun, happlied⟩ := replayUpdate_applied hd hfate hu' (hw.row r hmem) hk
      (fun col hcol _ => hden col hcol) hread hvalue hallowed
    rw [hop']
    exact ⟨u', hrun, hdone happlied⟩

theorem allText_of_replayInsert (hdriver : DriverReads env d pk r) (hpk : d.pk = some pk)
    {s : ShadowRow V} (hs : s.columns = r) {u u' : World V} {k : V} (hk : r pk = some k)
    (hu : StoredTable d pk (u.tables d.name)) (habsent : keyed pk (u.tables d.name) k = none)
    (hrun : ReorgStore.replayInsert env d.name d.columnNames s u = (.ok (), u'))
    (hback : keyed pk (u'.tables d.name) k = some r) : AllText d r := by
  obtain ⟨table, t, heffect, hu'⟩ := execute_ok (Proc.mapErr_ok_iff.mp hrun)
  obtain ⟨d', -, rfl, ht, -⟩ := effect_insert heffect
  have htable : u'.tables d.name = t := by
    rw [hu']
    exact Function.update_self _ _ _
  rw [htable] at hback
  have hmem := (keyed_eq_some hback).1
  rw [ht] at hmem
  simp only [List.map_cons, List.map_nil, List.foldl_cons, List.foldl_nil] at hmem
  have hnew : r = tupleOf env d.name d.columnNames
      (d.columnNames.map (ReorgStore.replayLiteral env d.columnNames s)) := by
    have hold : r ∉ u.tables d.name := by
      intro hr
      have hkeyed := keyed_of_mem hu.unique hr hk
      rw [habsent] at hkeyed
      cases hkeyed
    unfold insertRow at hmem
    split_ifs at hmem
    · exact absurd hmem hold
    · rcases List.mem_append.mp hmem with hr | hr
      · exact absurd hr hold
      · exact List.mem_singleton.mp hr
  have hden : ∀ col ∈ d.columnNames, Denotes env d s r col := by
    intro col hcol
    have happly := congrFun hnew col
    rw [tupleOf_replay, if_pos hcol] at happly
    exact happly.symm
  have hpkcol := TableDef.pk_mem_columnNames hpk
  exact allText_of_denotes hdriver hs (fun col hcol _ => hden col hcol) hk
    (readable_of_denotes hs (hden pk hpkcol) hpkcol hk)

/-- What the replayed `UPDATE` assigns to the columns beside the key. -/
def replayAssigns (env : Env V) (d : TableDef) (pk : String) (s : ShadowRow V) (col : String) :
    Option (Option V) :=
  if col ∈ d.columnNames ∧ col ≠ pk then
    some (env.value d.name col (ReorgStore.replayLiteral env d.columnNames s col)) else none

omit [DecidableEq V] in
theorem setColumns_replayAssigns (s : ShadowRow V) (x : Tuple V) (col : String) :
    setColumns env d.name (ReorgStore.replaySets env pk d.columnNames s) x col =
      assign (replayAssigns env d pk s) x col := by
  rw [setColumns_replay]
  unfold assign replayAssigns
  by_cases hcol : col ∈ d.columnNames ∧ col ≠ pk
  · rw [if_pos hcol, if_pos hcol, Option.getD_some]
  · rw [if_neg hcol, if_neg hcol, Option.getD_none]

/-- The row of a key after a replayed `UPDATE`: the assignments reach it if the literal of the key
denotes the key. -/
theorem keyed_replayUpdate {s : ShadowRow V} {u u' : World V}
    (hrun : ReorgStore.replayUpdate env d.name pk d.columnNames s u = (.ok (), u')) {k : V}
    {r' : Tuple V} (hthere : keyed pk (u.tables d.name) k = some r') :
    ∃ str, ReorgStore.readText env d.columnNames s pk = some str ∧
      keyed pk (u'.tables d.name) k =
        some (if env.value d.name pk ("'" ++ str ++ "'") = some k then
          assign (replayAssigns env d pk s) r' else r') := by
  unfold ReorgStore.replayUpdate at hrun
  cases hread : ReorgStore.readText env d.columnNames s pk with
  | none =>
    rw [hread] at hrun
    cases hrun
  | some str =>
    rw [hread] at hrun
    dsimp only at hrun
    refine ⟨str, rfl, ?_⟩
    split_ifs at hrun with hempty
    · cases hrun
      have hnone : assign (replayAssigns env d pk s) r' = r' := by
        funext col
        rw [← setColumns_replayAssigns]
        simp [setColumns, List.isEmpty_iff.mp hempty]
      rw [hthere, hnone, ite_self]
    · obtain ⟨table, t, heffect, hu'⟩ := execute_ok (Proc.mapErr_ok_iff.mp hrun)
      obtain ⟨rfl, ht⟩ := effect_update heffect
      have htable : u'.tables d.name = t := by
        rw [hu']
        exact Function.update_self _ _ _
      have hkey : replayAssigns env d pk s pk = none := by simp [replayAssigns]
      have hkeyed := keyed_update ("'" ++ str ++ "'") (setColumns_replayAssigns s) hkey
        (u.tables d.name)
      change keyed pk (updateRows env d.name _ pk _ _) = _ at hkeyed
      rw [htable, ht, hkeyed]
      cases hvalue : env.value d.name pk ("'" ++ str ++ "'") with
      | none => simpa using hthere
      | some x =>
        dsimp only
        unfold applyOp
        by_cases hx : x = k
        · subst hx
          rw [Function.update_self, if_pos rfl, hthere]
          rfl
        · have hne : k ≠ x := fun h => hx h.symm
          rw [Function.update_of_ne hne, if_neg fun h => hx (Option.some.inj h), hthere]

/-- A row that a replayed `UPDATE` put back has `TEXT` values only, and a key that needs no doubled
quotes. -/
theorem allText_of_replayUpdate (hdriver : DriverReads env d pk r)
    (hpkcol : pk ∈ d.columnNames) {s : ShadowRow V} (hs : s.columns = r) {u u' : World V} {k : V}
    (hk : r pk = some k)
    (hrun : ReorgStore.replayUpdate env d.name pk d.columnNames s u = (.ok (), u')) {r' : Tuple V}
    (hthere : keyed pk (u.tables d.name) k = some r') (hnoop : r' = r → QuoteFree env k)
    (hback : keyed pk (u'.tables d.name) k = some r) :
    AllText d r ∧ ((∃ col ∈ d.columnNames, col ≠ pk) → QuoteFree env k) := by
  obtain ⟨str, hread, hkeyed⟩ := keyed_replayUpdate hrun hthere
  have hstr : env.text k = some str := by
    unfold ReorgStore.readText at hread
    rwa [if_pos hpkcol, hs, hk, Option.bind_some] at hread
  have hsome : (env.text k).isSome := by rw [hstr]; rfl
  have hrow := Option.some.inj (hkeyed.symm.trans hback)
  have hquote (hno : '\'' ∉ str.toList) : QuoteFree env k := by
    intro str' hstr'
    rw [hstr] at hstr'
    cases hstr'
    exact hno
  by_cases hvalue : env.value d.name pk ("'" ++ str ++ "'") = some k
  · rw [if_pos hvalue] at hrow
    have hden : ∀ col ∈ d.columnNames, col ≠ pk → Denotes env d s r col := by
      intro col hcol hne
      have happly := congrFun hrow col
      unfold assign replayAssigns at happly
      rwa [if_pos ⟨hcol, hne⟩, Option.getD_some] at happly
    exact ⟨allText_of_denotes hdriver hs hden hk hsome,
      fun _ => hquote fun hin => hdriver.undoubled k str hk hstr hin hvalue⟩
  · -- nothing was assigned to this row, so it was as it is, and its key would have been found
    rw [if_neg hvalue] at hrow
    have hdoubled := hdriver.doubled pk k str hk hstr
    rw [doubleQuotes_of_quoteFree (hnoop hrow str hstr)] at hdoubled
    exact absurd hdoubled hvalue

/-- A recorded delete or update is undone if and only if the values of the row lie in `TEXT` columns
and, for an update, the text of the key has no quote.  An update that changed nothing leaves nothing
to undo: there the key is taken to have none. -/
theorem rollback_restores_iff (hd : env.schema.find d.name = some d) (hpk : d.pk = some pk)
    (hfate : ∀ n, env.fate n = .executed) (hw : StoredTable d pk (w.tables d.name))
    (hadm : Admitted env d w (w.tables d.name)) (hdriver : DriverReads env d pk r)
    (h : RecordedLoss env d pk r c w w') (hnoop : c.after = some r → QuoteFree env c.key)
    (hlow : ∀ s ∈ w.shadow d.name, s.blockNumber < b.toInt64) (hb : b.toNat ≤ c.block) :
    Restores env d pk b c.key r w' ↔ AllText d r ∧
      (c.after.isSome → (∃ col ∈ d.columnNames, col ≠ pk) → QuoteFree env c.key) := by
  obtain ⟨hmem, hk⟩ := keyed_eq_some h.finds
  obtain ⟨hlt, hshadow⟩ := shadow_of_recorded hd h.recorded h.image (hw.row r hmem)
  refine (rollback_single_iff hd hfate hb hlt hlow hshadow
    fun tables => keyed pk (tables d.name) c.key = some r).trans ?_
  constructor
  · intro ⟨u', hrun, hback⟩
    have hop : (shadowOf c).operation = c.operation.inverse := rfl
    unfold ReorgStore.replayRow at hrun
    rw [hop] at hrun
    have hthere : keyed pk (w'.tables d.name) c.key = c.after := by
      rw [h.leaves, Function.update_self]
    cases ha : c.after with
    | none =>
      have hop' : c.operation = .delete := by simp [RowChange.operation, h.before, ha]
      rw [hop'] at hrun
      rw [ha] at hthere
      refine ⟨allText_of_replayInsert hdriver hpk h.shadow_columns hk ?_ ?_ hrun hback, ?_⟩
      · exact h.stored
      · exact hthere
      · intro hsome
        cases hsome
    | some r' =>
      have hop' : c.operation = .update := by simp [RowChange.operation, h.before, ha]
      rw [hop'] at hrun
      rw [ha] at hthere
      obtain ⟨htext, hplain⟩ := allText_of_replayUpdate hdriver (TableDef.pk_mem_columnNames hpk)
        h.shadow_columns hk hrun hthere (fun hsame => hnoop (by rw [ha, hsame])) hback
      exact ⟨htext, fun _ => hplain⟩
  · intro ⟨htext, hkey⟩
    exact h.replay_restores hd hpk hfate hw hadm hdriver htext hkey rfl

end Restores

section Votes

/-- A value of a `TEXT` column, or of a `NUMERIC` one as it is shown. -/
inductive SqlValue where
  | text (s : String)
  | numeric (shown : String)
  deriving DecidableEq

/-- A Postgres of `TEXT` and `NUMERIC` columns that runs every statement. -/
def typedEnv (schema : Schema) : Env SqlValue where
  schema := schema
  value _ _ lit :=
    if lit = "NULL" then none
    else if lit.toList.head? = some '\'' then some (.text (unquote lit))
    else some (.numeric lit)
  value_null _ _ := if_pos rfl
  text
    | .text s => some s
    | .numeric _ => none
  fate _ := .executed
  order _ ks := ks
  order_perm _ ks := List.Perm.refl ks
  scan _ rs := rs
  scan_perm _ rs := List.Perm.refl rs

/-- Votes with a count of arbitrary size, which may be missing. -/
def votesTable : TableDef where
  name := "votes"
  columns := [{ name := "id", primaryKey := true },
    { name := "tally", colType := .bigInt, nullable := true }]

def voteTuple (id : String) (tally : Option String) : Tuple SqlValue := fun c =>
  if c = "id" then some (.text id) else if c = "tally" then tally.map .numeric else none

def voteRow (id : String) (tally : Option String) : Row :=
  (Row.new.insert "id" (.text id)).insert "tally" ((tally.map ColumnValue.bigNumeric).getD .null)

/-- A process on a database with one vote. -/
def voteWorld (tally : Option String) : World SqlValue :=
  { World.fresh SqlValue with tables := fun _ => [voteTuple "a" tally] }

/-- Block 10 deletes the vote. -/
def voteDeleted (tally : Option String) : RowChange SqlValue :=
  ⟨10, .text "a", some (voteTuple "a" tally), none⟩

/-- The world after the delete has been recorded. -/
def afterVoteDeleted (tally : Option String) : World SqlValue :=
  recordedWorld (typedEnv ⟨[votesTable]⟩) votesTable (voteWorld tally) (voteRow "a" tally) .delete 10
    []

theorem storedTable_vote (tally : Option String) :
    StoredTable votesTable "id" [voteTuple "a" tally] where
  row r hr := by
    rw [List.mem_singleton.mp hr]
    constructor
    · intro c hc
      have hne : ¬c = "id" ∧ ¬c = "tally" := by
        simpa [votesTable, TableDef.columnNames] using hc
      simp [voteTuple, hne]
    · intro c hc
      have hid : c = "id" := List.mem_singleton.mp hc
      rw [hid]
      rfl
  unique := List.pairwise_singleton _ _

theorem driverReads_vote (tally : Option String) :
    DriverReads (typedEnv ⟨[votesTable]⟩) votesTable "id" (voteTuple "a" tally) where
  reads col hcol v hv := by
    have hcases : col ∈ [_, _] := hcol
    rcases List.mem_cons.mp hcases with rfl | hlast
    · cases hv
      exact iff_of_true rfl rfl
    · rw [List.mem_singleton.mp hlast] at hv ⊢
      obtain ⟨shown, -, rfl⟩ := Option.map_eq_some_iff.mp hv
      exact iff_of_false (by simp [typedEnv]) (by decide)
  doubled c v str hv htext := by
    have hquoted : ("'" ++ Row.doubleQuotes str ++ "'").toList.head? = some '\'' := by simp
    cases v with
    | text s =>
      cases htext
      simp only [typedEnv, if_neg (quoted_ne_null _), if_pos hquoted, unquote_doubleQuotes]
    | numeric shown => cases htext
  undoubled v str hv htext hquote := by
    cases hv
    cases htext
    exact absurd hquote (by decide)

theorem recordedLoss_vote {tally : Option String} (htally : tally = none ∨ tally = some "5") :
    RecordedLoss (typedEnv ⟨[votesTable]⟩) votesTable "id" (voteTuple "a" tally) (voteDeleted tally)
      (voteWorld tally) (afterVoteDeleted tally) where
  before := rfl
  finds := by
    show keyed "id" [voteTuple "a" tally] (.text "a") = _
    simp [keyed, voteTuple]
  leaves := by
    funext k
    show keyed "id" [] k = Function.update (keyed "id" [voteTuple "a" tally]) (.text "a") none k
    by_cases hk : k = .text "a"
    · rw [hk, Function.update_self]
      rfl
    · rw [Function.update_of_ne hk]
      have hne : ¬SqlValue.text "a" = k := fun h => hk h.symm
      simp [keyed, voteTuple, hne]
  stored := by
    have hempty : (afterVoteDeleted tally).tables votesTable.name = [] := by
      simp [afterVoteDeleted, recordedWorld]
    rw [hempty]
    exact ⟨fun r hr => absurd hr List.not_mem_nil, List.Pairwise.nil⟩
  others name hname := Function.update_of_ne hname _ _
  recorded := by
    refine ⟨voteRow "a" tally, 10, voteWorld tally, _, rfl, fun r hr col hcol => ?_, rfl,
      Proc.eq_ok_of_fst ?_, rfl⟩
    · cases hr
      have hcases : col ∈ ["id", "tally"] := hcol
      rcases List.mem_cons.mp hcases with rfl | hlast
      · rcases htally with rfl | rfl <;> rfl
      · rw [List.mem_singleton.mp hlast]
        rcases htally with rfl | rfl <;> rfl
    · rcases htally with rfl | rfl <;> rfl

theorem quoteFree_vote (schema : Schema) : QuoteFree (typedEnv schema) (.text "a") := by
  intro str hstr
  cases hstr
  decide

/-- A vote without a count comes back. -/
theorem rollback_restores_iff_vote :
    Restores (typedEnv ⟨[votesTable]⟩) votesTable "id" 10 (.text "a") (voteTuple "a" none)
      (afterVoteDeleted none) := by
  have htext : AllText votesTable (voteTuple "a" none) := by
    intro col hcol hsome
    have hcases : col ∈ [_, _] := hcol
    rcases List.mem_cons.mp hcases with rfl | hlast
    · rfl
    · rw [List.mem_singleton.mp hlast] at hsome
      cases hsome
  have hiff := rollback_restores_iff (b := 10) rfl rfl (fun _ => rfl) (storedTable_vote none)
    ⟨by decide, by decide⟩ (driverReads_vote none) (recordedLoss_vote (.inl rfl))
    (fun _ => quoteFree_vote _) (fun _ hs => by cases hs) (by decide)
  exact hiff.mpr ⟨htext, fun _ _ => quoteFree_vote _⟩

/-- A vote with a count comes back without it. -/
theorem rollback_loses_tally :
    ¬∀ (env : Env SqlValue) (d : TableDef) (pk : String) (r : Tuple SqlValue)
      (c : RowChange SqlValue) (w w' : World SqlValue) (b : UInt64),
      env.schema.find d.name = some d → d.pk = some pk → (∀ n, env.fate n = .executed) →
      StoredTable d pk (w.tables d.name) → Admitted env d w (w.tables d.name) →
      DriverReads env d pk r → RecordedLoss env d pk r c w w' → QuoteFree env c.key →
      (∀ s ∈ w.shadow d.name, s.blockNumber < b.toInt64) → b.toNat ≤ c.block →
      Restores env d pk b c.key r w' := by
  intro h
  obtain ⟨n, w', hrun, hback⟩ := h (typedEnv ⟨[votesTable]⟩) votesTable "id" (voteTuple "a" (some "5"))
    (voteDeleted (some "5")) (voteWorld (some "5")) (afterVoteDeleted (some "5")) 10 rfl rfl
    (fun _ => rfl) (storedTable_vote (some "5")) ⟨by decide, by decide⟩ (driverReads_vote (some "5"))
    (recordedLoss_vote (.inr rfl)) (quoteFree_vote _) (fun _ hs => by cases hs) (by decide)
  have hlost : ((ReorgStore.rollbackFromBlock (typedEnv ⟨[votesTable]⟩) "votes" 10 "id"
      votesTable.columnNames (afterVoteDeleted (some "5"))).2.tables "votes").map
        (fun r => (r "id", r "tally")) = [(some (.text "a"), none)] := by
    decide +kernel
  change ReorgStore.rollbackFromBlock _ "votes" 10 "id" votesTable.columnNames _ = _ at hrun
  rw [hrun] at hlost
  have hmem := List.mem_map_of_mem (f := fun r => (r "id", r "tally")) (keyed_eq_some hback).1
  change _ ∈ List.map _ (w'.tables "votes") at hmem
  rw [hlost] at hmem
  exact absurd hmem (by decide)

end Votes

end ForgeIndex
