import Mathlib.Data.List.Sort
import ForgeIndex.Db.Buffer

/-!
# The shadow tables

`forge-index-db/src/reorg.rs`: the rows of `_reorg_{table}` and their replay.
-/

namespace ForgeIndex

inductive Operation where
  | insert | update | delete
  deriving DecidableEq, Repr

namespace Operation

def asStr : Operation → String
  | insert => "INSERT"
  | update => "UPDATE"
  | delete => "DELETE"

def inverse : Operation → String
  | insert => "DELETE"
  | update => "UPDATE"
  | delete => "INSERT"

end Operation

variable {V : Type}

namespace ReorgStore

/-- `format!("_reorg_{}", table)`. -/
def shadowTable (table : String) : String := "_reorg_" ++ table

/-- The `INSERT` of one shadow row: `_block_number` is a `BIGINT`, and the columns keep their
`NOT NULL`. -/
def insertShadow (env : Env V) (table : String) (columns : List String) (operation : String)
    (blockNumber : UInt64) (row : Row) : Proc (World V) SqlxError Unit := fun w =>
  match env.schema.find table with
  | none => (.err .rejected, w)
  | some d =>
    let r := tupleOf env table columns (columns.map row.literal)
    if 2 ^ 63 ≤ blockNumber.toNat || d.columns.any fun c => !c.nullable && (r c.name).isNone then
      (.err .constraint, w)
    else
      let rows := w.shadow table ++ [⟨r, operation, blockNumber.toInt64⟩]
      (.ok (), { w with shadow := Function.update w.shadow table rows })

def recordFlush (env : Env V) (table : String) (rows : List Row) (operation : Operation)
    (blockNumber : UInt64) (columns : List String) : Proc (World V) DbError Unit :=
  Proc.forEach (fun row => (do
      send env
      insertShadow env table columns operation.inverse blockNumber row).mapErr
    (.flush (shadowTable table))) rows

/-- The rows of `SELECT ... WHERE "_block_number" >= $1 ORDER BY "_block_number" DESC`: rows of
one block come in the order of the scan. -/
def selectRows (blockNumber : Int64) (rows : List (ShadowRow V)) : List (ShadowRow V) :=
  (rows.filter fun s => decide (blockNumber ≤ s.blockNumber)).insertionSort
    fun a b => b.blockNumber ≤ a.blockNumber

/-- `fetch_all` of the shadow query. -/
def selectShadow (env : Env V) (table : String) (blockNumber : UInt64) (columns : List String) :
    Proc (World V) SqlxError (List (ShadowRow V)) := fun w =>
  match env.schema.find table with
  | none => (.err .rejected, w)
  | some d =>
    if columns.all (· ∈ d.columnNames) then
      (.ok (selectRows blockNumber.toInt64 (env.scan w.clock (w.shadow table))), w)
    else (.err .rejected, w)

/-- A selected column read as `String`; `none` where the driver gives an error. -/
def readText (env : Env V) (columns : List String) (s : ShadowRow V) (c : String) :
    Option String :=
  if c ∈ columns then (s.columns c).bind env.text else none

/-- The literal that the replay writes for a column: a value that does not read as a `String`
becomes `NULL`. -/
def replayLiteral (env : Env V) (columns : List String) (s : ShadowRow V) (c : String) : String :=
  ((readText env columns s c).map fun v => "'" ++ Row.doubleQuotes v ++ "'").getD "NULL"

variable [DecidableEq V]

/-- Undo an `INSERT`.  The key is read with `get`, which panics, and goes into the statement
without doubling its quotes. -/
def replayDelete (env : Env V) (table pkCol : String) (columns : List String) (s : ShadowRow V) :
    Proc (World V) DbError Unit :=
  match readText env columns s pkCol with
  | none => Proc.stop
  | some pkVal => (execute env (.delete table pkCol ["'" ++ pkVal ++ "'"])).mapErr (.flush table)

/-- Undo a `DELETE`. -/
def replayInsert (env : Env V) (table : String) (columns : List String) (s : ShadowRow V) :
    Proc (World V) DbError Unit :=
  (execute env (.insert table columns [columns.map (replayLiteral env columns s)])).mapErr
    (.flush table)

/-- The assignments that undo an `UPDATE`. -/
def replaySets (env : Env V) (pkCol : String) (columns : List String) (s : ShadowRow V) :
    List (String × String) :=
  (columns.filter fun c => c ≠ pkCol).map fun c => (c, replayLiteral env columns s c)

/-- Undo an `UPDATE`. -/
def replayUpdate (env : Env V) (table pkCol : String) (columns : List String) (s : ShadowRow V) :
    Proc (World V) DbError Unit :=
  match readText env columns s pkCol with
  | none => Proc.stop
  | some pkVal =>
    if (replaySets env pkCol columns s).isEmpty then pure ()
    else (execute env (.update table (replaySets env pkCol columns s) pkCol
      ("'" ++ pkVal ++ "'"))).mapErr (.flush table)

/-- The `match op` of the replay loop. -/
def replayRow (env : Env V) (table pkCol : String) (columns : List String) (s : ShadowRow V) :
    Proc (World V) DbError Unit :=
  match s.operation with
  | "DELETE" => replayDelete env table pkCol columns s
  | "INSERT" => replayInsert env table columns s
  | "UPDATE" => replayUpdate env table pkCol columns s
  | _ => pure ()

/-- `DELETE FROM _reorg_{table}` of the rows that satisfy a condition. -/
def deleteShadow (env : Env V) (table : String) (p : ShadowRow V → Bool) :
    Proc (World V) SqlxError Unit := do
  send env
  Proc.modify fun w => { w with
    shadow := Function.update w.shadow table ((w.shadow table).filter fun s => !p s) }

def rollbackFromBlock (env : Env V) (table : String) (blockNumber : UInt64) (pkCol : String)
    (columns : List String) : Proc (World V) DbError ℕ := do
  let rows ← (do
    send env
    selectShadow env table blockNumber columns).mapErr (.query (shadowTable table))
  Proc.forEach (replayRow env table pkCol columns) rows
  (deleteShadow env table fun s => decide (blockNumber.toInt64 ≤ s.blockNumber)).mapErr
    (.flush (shadowTable table))
  pure rows.length

def clearBeforeBlock (env : Env V) (table : String) (blockNumber : UInt64) :
    Proc (World V) DbError Unit :=
  (deleteShadow env table fun s => decide (s.blockNumber < blockNumber.toInt64)).mapErr
    (.flush (shadowTable table))

theorem replayRow_frame (env : Env V) (table pkCol : String) (columns : List String)
    (s : ShadowRow V) {I : World V → Prop}
    (hclock : ∀ w, I w → I { w with clock := w.clock + 1 })
    (hwrite : ∀ w tables sent, I w → I { w with tables, sent }) :
    Proc.Triple I (replayRow env table pkCol columns s) (fun _ => I) I := by
  have hexec (stmt : Stmt) :
      Proc.Triple I ((execute env stmt).mapErr (DbError.flush table)) (fun _ => I) I :=
    (execute_triple env stmt hclock fun w _ _ hw _ => hwrite w _ _ hw).mapErr
  unfold replayRow
  split
  · unfold replayDelete
    split
    · exact Proc.Triple.stop fun _ hw => hw
    · exact hexec _
  · exact hexec _
  · unfold replayUpdate
    split
    · exact Proc.Triple.stop fun _ hw => hw
    · split_ifs
      · exact Proc.Triple.pure fun _ hw => hw
      · exact hexec _
  · exact Proc.Triple.pure fun _ hw => hw

theorem rollbackFromBlock_ok {env : Env V} {table pkCol : String} {columns : List String}
    {b : UInt64} {w w' : World V} {n : ℕ} (h : rollbackFromBlock env table b pkCol columns w =
      (.ok n, w')) :
    ∃ w₁, Proc.forEach (replayRow env table pkCol columns)
        (selectRows b.toInt64 (env.scan (w.clock + 1) (w.shadow table)))
        { w with clock := w.clock + 1 } = (.ok (), w₁) ∧
      w'.tables = w₁.tables ∧ w'.shadow = Function.update w.shadow table
        ((w.shadow table).filter fun s => !decide (b.toInt64 ≤ s.blockNumber)) := by
  obtain ⟨rows, w₀, hquery, hrest⟩ := Proc.bind_ok_iff.mp h
  obtain ⟨_, w₁, hloop, hrest⟩ := Proc.bind_ok_iff.mp hrest
  obtain ⟨_, w₂, hclean, hdone⟩ := Proc.bind_ok_iff.mp hrest
  cases hdone
  obtain ⟨_, w₃, hsend, hselect⟩ := Proc.bind_ok_iff.mp (Proc.mapErr_ok_iff.mp hquery)
  rw [send_ok hsend] at hselect
  have hrows : rows = selectRows b.toInt64 (env.scan (w.clock + 1) (w.shadow table)) ∧
      w₀ = { w with clock := w.clock + 1 } := by
    unfold selectShadow at hselect
    split at hselect
    · cases hselect
    · split at hselect
      · cases hselect
        exact ⟨rfl, rfl⟩
      · cases hselect
  rw [hrows.1, hrows.2] at hloop
  have hshadow : w₁.shadow = w.shadow := by
    have hframe : Proc.Triple (fun w' => w'.shadow = w.shadow)
        (Proc.forEach (replayRow env table pkCol columns)
          (selectRows b.toInt64 (env.scan (w.clock + 1) (w.shadow table))))
        (fun _ w' => w'.shadow = w.shadow) fun w' => w'.shadow = w.shadow :=
      Proc.Triple.forEach (I := fun _ (w' : World V) => w'.shadow = w.shadow) fun _ s _ _ =>
        replayRow_frame env table pkCol columns s (fun _ hw => hw) fun _ _ _ hw => hw
    have hpost := hframe { w with clock := w.clock + 1 } rfl
    rw [hloop] at hpost
    exact hpost
  obtain ⟨_, w₄, hsend, hdelete⟩ := Proc.bind_ok_iff.mp (Proc.mapErr_ok_iff.mp hclean)
  rw [send_ok hsend] at hdelete
  cases hdelete
  refine ⟨w₁, hloop, rfl, ?_⟩
  dsimp only
  rw [hshadow]

theorem rollbackFromBlock_of_replay {env : Env V} {d : TableDef} {pkCol : String} {b : UInt64}
    (hd : env.schema.find d.name = some d) (hfate : ∀ n, env.fate n = .executed) {w w₁ : World V}
    {rows : List (ShadowRow V)}
    (hrows : selectRows b.toInt64 (env.scan (w.clock + 1) (w.shadow d.name)) = rows)
    (hreplay : Proc.forEach (replayRow env d.name pkCol d.columnNames) rows
      { w with clock := w.clock + 1 } = (.ok (), w₁)) :
    rollbackFromBlock env d.name b pkCol d.columnNames w = (.ok rows.length, { w₁ with
      clock := w₁.clock + 1
      shadow := Function.update w₁.shadow d.name ((w₁.shadow d.name).filter
        fun s => !decide (b.toInt64 ≤ s.blockNumber)) }) := by
  have hquery : ((do
      send env
      selectShadow env d.name b d.columnNames).mapErr
        (DbError.query (shadowTable d.name)) : Proc (World V) DbError _) w =
      (.ok rows, { w with clock := w.clock + 1 }) := by
    rw [Proc.mapErr_ok_iff]
    refine (Proc.bind_of_ok (send_of_executed (hfate _))).trans ?_
    unfold selectShadow
    rw [hd]
    dsimp only
    rw [if_pos (by simp), hrows]
  have hdelete : (deleteShadow env d.name
      (fun s => decide (b.toInt64 ≤ s.blockNumber))).mapErr
        (DbError.flush (shadowTable d.name)) w₁ = (.ok (), { w₁ with
    clock := w₁.clock + 1
    shadow := Function.update w₁.shadow d.name ((w₁.shadow d.name).filter
      fun s => !decide (b.toInt64 ≤ s.blockNumber)) }) := by
    rw [Proc.mapErr_ok_iff]
    exact Proc.bind_of_ok (send_of_executed (hfate _))
  exact (Proc.bind_of_ok hquery).trans ((Proc.bind_of_ok hreplay).trans (Proc.bind_of_ok hdelete))

/-- The user tables hold `T` and no shadow table has a row. -/
def Unrecorded (T : String → Table V) (w : World V) : Prop :=
  w.tables = T ∧ ∀ table, w.shadow table = []

omit [DecidableEq V] in
theorem selectShadow_triple (env : Env V) (table : String) (blockNumber : UInt64)
    (columns : List String) (T : String → Table V) :
    Proc.Triple (Unrecorded T) (selectShadow env table blockNumber columns)
      (fun rows w => rows = [] ∧ Unrecorded T w) (Unrecorded T) := by
  intro w hw
  unfold selectShadow
  split
  · exact hw
  · split_ifs
    · have hscan : env.scan w.clock (w.shadow table) = [] := by
        have hperm := env.scan_perm w.clock (w.shadow table)
        rw [hw.2 table] at hperm ⊢
        exact hperm.eq_nil
      refine ⟨?_, hw⟩
      rw [hscan]
      simp [selectRows]
    · exact hw

omit [DecidableEq V] in
theorem deleteShadow_triple (env : Env V) (table : String) (p : ShadowRow V → Bool)
    (T : String → Table V) :
    Proc.Triple (Unrecorded T) (deleteShadow env table p) (fun _ => Unrecorded T)
      (Unrecorded T) := by
  refine (send_triple env fun w hw => hw).bind fun _ => Proc.Triple.modify fun w hw => ?_
  refine ⟨hw.1, fun t => ?_⟩
  by_cases ht : t = table
  · subst ht
    simp [hw.2 t]
  · simpa [Function.update_of_ne ht] using hw.2 t

theorem rollbackFromBlock_triple (env : Env V) (table : String) (blockNumber : UInt64)
    (pkCol : String) (columns : List String) (T : String → Table V) :
    Proc.Triple (Unrecorded T) (rollbackFromBlock env table blockNumber pkCol columns)
      (fun n w => n = 0 ∧ Unrecorded T w) (Unrecorded T) := by
  have hselect := (send_triple env (I := Unrecorded T) fun w hw => hw).bind fun _ =>
    selectShadow_triple env table blockNumber columns T
  refine hselect.mapErr.bind fun rows => ?_
  intro w hw
  obtain ⟨rfl, hw⟩ := hw
  have hdelete := (deleteShadow_triple env table
    (fun s => decide (blockNumber.toInt64 ≤ s.blockNumber)) T).mapErr
      (g := DbError.flush (shadowTable table))
  exact (hdelete.bind fun _ => Proc.Triple.pure fun w hw => ⟨rfl, hw⟩) w hw

end ReorgStore

end ForgeIndex
