import ForgeIndex.Db.Taken

/-!
# Reading what is buffered

`read_one` looks for the last insert of a key in the buffer.  What a flush leaves under that key
is the insert that the batch keeps, with the buffered updates applied, unless a delete is buffered.
-/

namespace ForgeIndex

open KeyedOps

/-- `ColumnValue::eq`: floats compare as numbers, JSON values as `serde_json` does it. -/
def ColumnValue.same (jsonEq : String → String → Bool) : ColumnValue → ColumnValue → Bool
  | .float x, .float y => x ≠ "NaN" && (x = y || (x ∈ ["0", "-0"] && y ∈ ["0", "-0"]))
  | .json x, .json y => jsonEq x y
  | x, y => x = y

/-- The closure of `read_one`. -/
def Row.readable (jsonEq : String → String → Bool) (pkCol : String) (pkValue : ColumnValue)
    (r : Row) : Bool :=
  r.operation.isNone && (r.get pkCol).any fun v => v.same jsonEq pkValue

namespace WriteBuffer

variable {V : Type}

def readOne (jsonEq : String → String → Bool) (w : World V) (table pkCol : String)
    (pkValue : ColumnValue) : Option Row :=
  (w.buffers.get table).bind fun entry => entry.reverse.find? (Row.readable jsonEq pkCol pkValue)

section Read

variable {jsonEq : String → String → Bool} {w : World V} {table pkCol : String}
  {pkValue : ColumnValue}

theorem readOne_eq : readOne jsonEq w table pkCol pkValue =
    (rowsOf w table).reverse.find? (Row.readable jsonEq pkCol pkValue) := by
  unfold readOne rowsOf
  cases w.buffers.get table <;> rfl

theorem readOne_eq_none_iff : readOne jsonEq w table pkCol pkValue = none ↔
    ∀ r ∈ rowsOf w table, r.readable jsonEq pkCol pkValue = false := by
  rw [readOne_eq, List.find?_eq_none]
  simp

theorem readOne_eq_some_iff {row : Row} : readOne jsonEq w table pkCol pkValue = some row ↔
    ∃ pre post, rowsOf w table = pre ++ row :: post ∧ row.readable jsonEq pkCol pkValue = true ∧
      ∀ r ∈ post, r.readable jsonEq pkCol pkValue = false := by
  rw [readOne_eq, List.find?_eq_some_iff_append]
  constructor
  · rintro ⟨hrow, before, after, hrows, hbefore⟩
    refine ⟨after.reverse, before.reverse, ?_, hrow, fun r hr => ?_⟩
    · simpa using congrArg List.reverse hrows
    · simpa using hbefore r (List.mem_reverse.mp hr)
  · rintro ⟨pre, post, hrows, hrow, hpost⟩
    refine ⟨hrow, post.reverse, pre.reverse, ?_, fun r hr => ?_⟩
    · rw [hrows]
      simp
    · simpa using hpost r (List.mem_reverse.mp hr)

end Read

variable [DecidableEq V]

/-- The batched insert into an empty table keeps `x` under the key `k`, and no delete of `k` is
buffered. -/
def Stays (env : Env V) (d : TableDef) (pk : String) (rows : List Row) (k : V) (x : Tuple V) :
    Prop :=
  keyed pk (grown env d rows []) k = some x ∧
    .delete ∉ onKey k (bufferedOps env d.name d.columnNames pk rows)

/-- A kept row with the buffered updates of its key. -/
def updated (env : Env V) (d : TableDef) (pk : String) (rows : List Row) (k : V) (x : Tuple V) :
    Tuple V := fun c =>
  (lastSet (onKey k (bufferedOps env d.name d.columnNames pk rows)) c).getD (x c)

section Flushed

variable {env : Env V} {d : TableDef} {pk : String} {w w' : World V} {n : ℕ}

theorem flushTable_key_iff (hs : validateSchema env.schema = []) (hd : d ∈ env.schema.tables)
    (hpk : d.pk = some pk) (hempty : w.tables d.name = [])
    (h : flushTable (new env.schema) env d.name w = (.ok n, w')) (k : V) (r : Tuple V) :
    keyed pk (w'.tables d.name) k = some r ↔
      ∃ x, Stays env d pk (rowsOf w d.name) k x ∧
        r = updated env d pk (rowsOf w d.name) k x := by
  obtain ⟨hcols, hpkb⟩ := new_of_mem hs hd hpk
  obtain ⟨-, w₀, w₃, hstart, -, hrows, hend, -⟩ := flushTable_rows h
  obtain ⟨_, w₁, hins, hrows⟩ := Proc.bind_ok_iff.mp hrows
  obtain ⟨_, w₂, hupd, hdel⟩ := Proc.bind_ok_iff.mp hrows
  simp only [insertPhase, hcols] at hins
  simp only [updatePhase, hcols, hpkb] at hupd
  simp only [deletePhase, hpkb] at hdel
  have hkept : w₁.tables d.name = grown env d (rowsOf w d.name) [] := by
    rw [(flushInserts_grown (find_of_mem hs hd) hpk (fun r hr => kind_of_mem_ofKind hr) hins).1,
      hstart, hempty]
    unfold grown
    rw [insertedTuples_ofKind]
  -- updates and deletes act on the rows by their keys
  have hphases : keyed pk (w'.tables d.name) k =
      runAll (runAll (keyed pk (grown env d (rowsOf w d.name) []) k)
        ((onKey k (bufferedOps env d.name d.columnNames pk (rowsOf w d.name))).filter
          fun a => a.rank = 1))
        ((onKey k (bufferedOps env d.name d.columnNames pk (rowsOf w d.name))).filter
          fun a => a.rank = 2) := by
    rw [hend, flushDeletes_ok (fun r hr => kind_of_mem_ofKind hr) hdel,
      flushUpdates_ok (fun r hr => kind_of_mem_ofKind hr) hupd, hkept, replay_apply, replay_apply,
      bufferedOps_ofKind d.name d.columnNames (rowsOf w d.name) .update 1 fun r => ?_,
      bufferedOps_ofKind d.name d.columnNames (rowsOf w d.name) .delete 2 fun r => ?_,
      onKey_filter, onKey_filter]
    all_goals
      unfold Row.act
      cases r.kind <;> simp
  rw [hphases]
  unfold Stays updated
  by_cases hdelete : Act.delete ∈ onKey k (bufferedOps env d.name d.columnNames pk (rowsOf w d.name))
  · rw [runAll_deletes hdelete]
    simp [hdelete]
  · rw [filter_delete_nil hdelete, runAll_nil, runAll_updates hdelete, Option.map_eq_some_iff]
    simp only [hdelete, not_false_eq_true, and_true]
    exact exists_congr fun x => and_congr_right fun _ => eq_comm

/-- The row that the table has under a key, as Postgres reads the key's literal. -/
def flushedRow (env : Env V) (d : TableDef) (pk : String) (w' : World V) (key : ColumnValue) :
    Option (Tuple V) :=
  (env.value d.name pk (Row.toSqlLiteral key)).bind (keyed pk (w'.tables d.name))

/-- What is read is what the flush leaves. -/
structure ReadsFlushed (jsonEq : String → String → Bool) (env : Env V) (d : TableDef) (pk : String)
    (w w' : World V) (key : ColumnValue) : Prop where
  present : (readOne jsonEq w d.name pk key).isSome ↔ (flushedRow env d pk w' key).isSome
  values : ∀ row r, readOne jsonEq w d.name pk key = some row →
    flushedRow env d pk w' key = some r →
    ∀ c ∈ d.columnNames, env.value d.name c (row.literal c) = r c

/-- Without a readable row no row of the key stays.  With one, the row that stays has, with its
updates, the values of the last readable one. -/
structure LastInsertStays (jsonEq : String → String → Bool) (env : Env V) (d : TableDef)
    (pk : String) (rows : List Row) (key : ColumnValue) : Prop where
  unread : (∀ r ∈ rows, r.readable jsonEq pk key = false) →
    ∀ k x, env.value d.name pk (Row.toSqlLiteral key) = some k → ¬Stays env d pk rows k x
  read : ∀ pre row post, rows = pre ++ row :: post → row.readable jsonEq pk key = true →
    (∀ r ∈ post, r.readable jsonEq pk key = false) →
    ∃ k x, env.value d.name pk (Row.toSqlLiteral key) = some k ∧ Stays env d pk rows k x ∧
      ∀ c ∈ d.columnNames, env.value d.name c (row.literal c) = updated env d pk rows k x c

theorem flushedRow_eq_some_iff (hs : validateSchema env.schema = []) (hd : d ∈ env.schema.tables)
    (hpk : d.pk = some pk) (hempty : w.tables d.name = [])
    (h : flushTable (new env.schema) env d.name w = (.ok n, w')) (key : ColumnValue)
    (r : Tuple V) : flushedRow env d pk w' key = some r ↔
      ∃ k x, env.value d.name pk (Row.toSqlLiteral key) = some k ∧
        Stays env d pk (rowsOf w d.name) k x ∧ r = updated env d pk (rowsOf w d.name) k x := by
  unfold flushedRow
  rw [Option.bind_eq_some_iff]
  refine exists_congr fun k => ?_
  rw [flushTable_key_iff hs hd hpk hempty h k r]
  exact exists_and_left.symm

/-- A read of a key agrees with the flush exactly when the last insert that can be read is the one
that stays, as far as its values go. -/
theorem readOne_agrees_iff (jsonEq : String → String → Bool) (hs : validateSchema env.schema = [])
    (hd : d ∈ env.schema.tables) (hpk : d.pk = some pk) (hempty : w.tables d.name = [])
    (h : flushTable (new env.schema) env d.name w = (.ok n, w')) (key : ColumnValue) :
    ReadsFlushed jsonEq env d pk w w' key ↔
      LastInsertStays jsonEq env d pk (rowsOf w d.name) key := by
  have hflushed := flushedRow_eq_some_iff hs hd hpk hempty h key
  constructor
  · intro hreads
    constructor
    · intro hnone k x hk hstays
      have hsome := hreads.present.mpr (Option.isSome_iff_exists.mpr
        ⟨_, (hflushed _).mpr ⟨k, x, hk, hstays, rfl⟩⟩)
      rw [readOne_eq_none_iff.mpr hnone] at hsome
      exact absurd hsome Bool.false_ne_true
    · intro pre row post hrows hrow hpost
      have hread := readOne_eq_some_iff.mpr ⟨pre, post, hrows, hrow, hpost⟩
      obtain ⟨r, hr⟩ := Option.isSome_iff_exists.mp
        (hreads.present.mp (Option.isSome_iff_exists.mpr ⟨row, hread⟩))
      obtain ⟨k, x, hk, hstays, heq⟩ := (hflushed r).mp hr
      refine ⟨k, x, hk, hstays, fun c hc => ?_⟩
      rw [← heq]
      exact hreads.values row r hread hr c hc
  · intro hlast
    constructor
    · cases hread : readOne jsonEq w d.name pk key with
      | none =>
        have hunread := hlast.unread (readOne_eq_none_iff.mp hread)
        cases hrow : flushedRow env d pk w' key with
        | none => exact Iff.rfl
        | some r =>
          obtain ⟨k, x, hk, hstays, -⟩ := (hflushed r).mp hrow
          exact absurd hstays (hunread k x hk)
      | some row =>
        obtain ⟨pre, post, hrows, hrow, hpost⟩ := readOne_eq_some_iff.mp hread
        obtain ⟨k, x, hk, hstays, -⟩ := hlast.read pre row post hrows hrow hpost
        rw [(hflushed _).mpr ⟨k, x, hk, hstays, rfl⟩]
        exact Iff.rfl
    · intro row r hread hr c hc
      obtain ⟨pre, post, hrows, hrow, hpost⟩ := readOne_eq_some_iff.mp hread
      obtain ⟨k, x, hk, hstays, hvalues⟩ := hlast.read pre row post hrows hrow hpost
      rw [(hflushed _).mpr ⟨k, x, hk, hstays, rfl⟩] at hr
      rw [hvalues c hc, ← Option.some.inj hr]

/-- Buffered rows, read by key. -/
def readAccount (rows : List Row) (id : String) : Option Row :=
  readOne (fun x y => x == y) (bufferedWorld "accounts" rows) "accounts" "id" (.text id)

/-- The row of an account after a flush of the rows. -/
def flushedAccount (rows : List Row) (id : String) : Option (Tuple String) :=
  flushedRow (plainEnv ⟨[accountsTable]⟩) accountsTable "id" (flushedRows rows).2 (.text id)

theorem readOne_agrees_iff_account :
    ReadsFlushed (fun x y => x == y) (plainEnv ⟨[accountsTable]⟩) accountsTable "id"
        (bufferedWorld "accounts" [accountRow "a" "5"]) (flushedRows [accountRow "a" "5"]).2
        (.text "a") ↔
      LastInsertStays (fun x y => x == y) (plainEnv ⟨[accountsTable]⟩) accountsTable "id"
        (rowsOf (bufferedWorld "accounts" [accountRow "a" "5"]) "accounts") (.text "a") :=
  readOne_agrees_iff (d := accountsTable) (n := 1) _ (by decide) (List.mem_singleton_self _)
    (by decide) rfl rfl _

/-- A row whose delete is buffered can still be read. -/
theorem readOne_not_agrees :
    ¬∀ (env : Env String) (jsonEq : String → String → Bool) (d : TableDef) (pk : String)
        (w w' : World String) (n : ℕ) (key : ColumnValue),
      validateSchema env.schema = [] → d ∈ env.schema.tables → d.pk = some pk →
      w.tables d.name = [] → flushTable (new env.schema) env d.name w = (.ok n, w') →
      ReadsFlushed jsonEq env d pk w w' key := by
  intro h
  have hreads := h (plainEnv ⟨[accountsTable]⟩) (fun x y => x == y) accountsTable "id"
    (bufferedWorld "accounts" [accountRow "a" "5", removedRow "a"]) _ 2 (.text "a")
    (by decide) (List.mem_singleton_self _) (by decide) rfl rfl
  have hread : (readAccount [accountRow "a" "5", removedRow "a"] "a").isSome = true := by decide
  have hgone : (flushedAccount [accountRow "a" "5", removedRow "a"] "a").isSome = false := by decide
  exact absurd (hreads.present.mp hread) (by
    show ¬(flushedAccount [accountRow "a" "5", removedRow "a"] "a").isSome = true
    rw [hgone]
    exact Bool.false_ne_true)

end Flushed

end WriteBuffer

end ForgeIndex
