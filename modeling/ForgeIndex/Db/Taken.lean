import ForgeIndex.Db.Concurrent

/-!
# The operations that a flush takes

`flush_table` takes the rows of its table out of the buffer before it sends the first statement,
and it counts them before it looks at what they ask for.
-/

namespace ForgeIndex

namespace WriteBuffer

variable {V : Type} [DecidableEq V] {env : Env V} {b : WriteBuffer} {table : String}
  {w w' : World V}

theorem execute_err {s : Stmt} {e : SqlxError} (h : execute env s w = (.err e, w')) :
    w' = { w with clock := w.clock + 1 } := by
  have hpost := execute_cases env s w w rfl
  rw [h] at hpost
  exact hpost

theorem forEach_execute_ok {stmts : List Stmt}
    (h : Proc.forEach (execute env) stmts w = (.ok (), w')) :
    w'.sent = w.sent ++ stmts ∧ w'.buffers = w.buffers := by
  induction stmts generalizing w with
  | nil =>
    cases h
    exact ⟨(List.append_nil _).symm, rfl⟩
  | cons s stmts ih =>
    obtain ⟨w₁, hfirst, hrest⟩ := Proc.forEach_cons_ok_iff.mp h
    obtain ⟨table, t, -, rfl⟩ := execute_ok hfirst
    obtain ⟨hsent, hbuffers⟩ := ih hrest
    exact ⟨by rw [hsent, List.append_assoc]; rfl, hbuffers⟩

theorem executeAll_ok {stmts : List Stmt} (h : executeAll env table stmts w = (.ok (), w')) :
    w'.sent = w.sent ++ stmts ∧ w'.buffers = w.buffers :=
  forEach_execute_ok (Proc.mapErr_ok_iff.mp h)

theorem executeAll_err {stmts : List Stmt} {e : DbError}
    (h : executeAll env table stmts w = (.err e, w')) :
    ∃ done s rest, stmts = done ++ s :: rest ∧ w'.sent = w.sent ++ done ∧
      w'.buffers = w.buffers := by
  obtain ⟨_, hloop, -⟩ := Proc.mapErr_err_iff.mp h
  obtain ⟨done, s, rest, w₁, rfl, hdone, hs⟩ := Proc.forEach_err hloop
  obtain ⟨hsent, hbuffers⟩ := forEach_execute_ok hdone
  rw [execute_err hs]
  exact ⟨done, s, rest, rfl, hsent, hbuffers⟩

/-- A flush that finished counts all rows of the table, and has sent their statements. -/
theorem flushTable_ok_sent {n : ℕ} (h : flushTable b env table w = (.ok n, w')) :
    n = (rowsOf w table).length ∧ w'.sent = w.sent ++ flushStmts b table (rowsOf w table) := by
  obtain ⟨hcount, w₀, w₁, -, hstart, hrows, -, hend⟩ := flushTable_rows h
  rw [flushRows_eq] at hrows
  rw [hend, ← hstart]
  exact ⟨hcount, (executeAll_ok hrows).1⟩

/-- A flush that failed has sent some statements and not the one after them, and the buffer of the
table is empty. -/
theorem flushTable_err_sent {e : DbError} (h : flushTable b env table w = (.err e, w')) :
    rowsOf w' table = [] ∧ ∃ done s rest,
      flushStmts b table (rowsOf w table) = done ++ s :: rest ∧ w'.sent = w.sent ++ done := by
  obtain ⟨w₀, -, hstart, hempty, hrows⟩ := flushTable_rows_err h
  rw [flushRows_eq] at hrows
  obtain ⟨done, s, rest, hstmts, hdone, hbuffers⟩ := executeAll_err hrows
  unfold rowsOf at hempty ⊢
  rw [hbuffers]
  exact ⟨hempty, done, s, rest, hstmts, by rw [hdone, hstart]⟩

/-- No operation is lost: each one of the table, by its number, is carried by an executed statement
or has stayed in the buffer, where the order is kept. -/
def LosesNothing (b : WriteBuffer) (table : String) (w w' : World V) : Prop :=
  ∃ (done rest : List (Stmt × List ℕ)) (kept : List Numbered),
    plan b table (Shared.numbered (rowsOf w table)) = done ++ rest ∧
    w'.sent = w.sent ++ done.map Prod.fst ∧
    kept.Sublist (Shared.numbered (rowsOf w table)) ∧ rowsOf w' table = kept.map Prod.snd ∧
    ∀ x ∈ Shared.numbered (rowsOf w table), x.1 ∈ carried done ∨ x ∈ kept

theorem map_snd_numbered (rows : List Row) : (Shared.numbered rows).map Prod.snd = rows := by
  unfold Shared.numbered
  rw [List.map_map]
  exact List.zipIdx_map_fst 0 rows

theorem carries_of_mem_plan {rows : List Numbered} {p : Stmt × List ℕ}
    (h : p ∈ plan b table rows) : p.2 ≠ [] := by
  rcases List.mem_append.mp h with h | h
  · unfold insertPlan at h
    split at h
    · split_ifs at h with hempty
      · cases h
      · rw [List.mem_singleton.mp h]
        simpa using hempty
    · cases h
  · rcases List.mem_append.mp h with h | h
    · unfold updatePlan at h
      split at h
      · obtain ⟨x, -, hx⟩ := List.mem_flatMap.mp h
        obtain ⟨s, -, rfl⟩ := List.mem_map.mp hx
        exact List.cons_ne_nil _ _
      · cases h
    · unfold deletePlan at h
      split at h
      · rename_i pk _
        split_ifs at h with hempty
        · cases h
        · rw [List.mem_singleton.mp h]
          -- a key in the list comes from a row that has one
          obtain ⟨lit, hlit⟩ := List.exists_mem_of_ne_nil _ (mt List.isEmpty_iff.mpr hempty)
          obtain ⟨row, hrow, hkey⟩ := List.mem_filterMap.mp hlit
          obtain ⟨x, hx, rfl⟩ := List.mem_map.mp hrow
          obtain ⟨v, hv, -⟩ := Option.map_eq_some_iff.mp hkey
          have hmem : x.1 ∈ ((numberedOf .delete rows).filter fun x =>
              (x.2.get pk).isSome).map Prod.fst :=
            List.mem_map_of_mem (List.mem_filter.mpr ⟨hx, by rw [hv]; rfl⟩)
          exact List.ne_nil_of_mem hmem
      · cases h

/-- The operations that the statements carry are different ones, and among those of the table. -/
theorem carried_numbered (b : WriteBuffer) (table : String) (rows : List Row) :
    (carried (plan b table (Shared.numbered rows))).Nodup ∧
      ∀ i ∈ carried (plan b table (Shared.numbered rows)), ∃ x ∈ Shared.numbered rows, x.1 = i := by
  have hperm := carried_plan b table (Shared.numbered rows)
  refine ⟨hperm.nodup_iff.mpr ((Shared.nodup_numbered rows).sublist (List.filter_sublist.map _)), fun i hi => ?_⟩
  obtain ⟨x, hx, hi⟩ := List.mem_map.mp (hperm.mem_iff.mp hi)
  exact ⟨x, (List.mem_filter.mp hx).1, hi⟩

/-- A flush that fails loses an operation: the statement that was not executed carries one, and the
buffer is empty. -/
theorem flushTable_loses {e : DbError} (h : flushTable b env table w = (.err e, w')) :
    ¬LosesNothing b table w w' := by
  obtain ⟨hempty, done, s, rest, hstmts, hsent⟩ := flushTable_err_sent h
  rintro ⟨done', rest', kept, hplan, hsent', -, hkept, hall⟩
  obtain rfl : kept = [] := List.map_eq_nil_iff.mp (hkept.symm.trans hempty)
  have hdone : done'.map Prod.fst = done := List.append_cancel_left (hsent'.symm.trans hsent)
  -- the first statement that was not executed, with the operations it carries
  have hrest : rest'.map Prod.fst = s :: rest := by
    have hfst := map_fst_plan b table (Shared.numbered (rowsOf w table))
    rw [hplan, map_snd_numbered, hstmts, List.map_append, hdone] at hfst
    exact List.append_cancel_left hfst
  obtain ⟨p, ps, rfl, -, -⟩ := List.map_eq_cons_iff.mp hrest
  have hmem : p ∈ plan b table (Shared.numbered (rowsOf w table)) := by
    rw [hplan]
    simp
  obtain ⟨i, hi⟩ := List.exists_mem_of_ne_nil _ (carries_of_mem_plan hmem)
  obtain ⟨hnodup, hnumbers⟩ := carried_numbered b table (rowsOf w table)
  obtain ⟨x, hx, rfl⟩ := hnumbers i (List.mem_flatMap.mpr ⟨p, hmem, hi⟩)
  rcases hall x hx with hcarried | hkept
  · rw [hplan, carried, List.flatMap_append, List.flatMap_cons] at hnodup
    exact (List.nodup_append.mp hnodup).2.2 x.1 hcarried x.1 (List.mem_append_left _ hi) rfl
  · exact absurd hkept List.not_mem_nil

/-- A Postgres that refuses every statement. -/
def refusingEnv (schema : Schema) : Env String :=
  { plainEnv schema with fate := fun _ => .rejected }

/-- A row is buffered, and a flush of it refused. -/
def refusedFlush : Ended DbError ℕ × World String :=
  flushTable (new ⟨[accountsTable]⟩) (refusingEnv ⟨[accountsTable]⟩) "accounts"
    (bufferedWorld "accounts" [accountRow "a" "5"])

theorem flushTable_loses_refused :
    ¬LosesNothing (new ⟨[accountsTable]⟩) "accounts"
      (bufferedWorld "accounts" [accountRow "a" "5"]) refusedFlush.2 :=
  @flushTable_loses String _ (refusingEnv ⟨[accountsTable]⟩) _ _ _ _ (.flush "accounts" .rejected) rfl

/-- The row is neither in the table nor in the buffer. -/
theorem flushTable_not_loses_nothing :
    ¬∀ (env : Env String) (b : WriteBuffer) (table : String) (w w' : World String) (e : DbError),
      flushTable b env table w = (.err e, w') → LosesNothing b table w w' := by
  intro h
  obtain ⟨done, rest, kept, -, hsent, -, hkept, hall⟩ := h (refusingEnv ⟨[accountsTable]⟩)
    (new ⟨[accountsTable]⟩) "accounts" (bufferedWorld "accounts" [accountRow "a" "5"])
    refusedFlush.2 (.flush "accounts" .rejected) rfl
  have hnone : refusedFlush.2.sent = [] := rfl
  have hempty : rowsOf refusedFlush.2 "accounts" = [] := rfl
  rw [hempty] at hkept
  rw [hnone] at hsent
  obtain rfl : kept = [] := List.map_eq_nil_iff.mp hkept.symm
  obtain rfl : done = [] := List.map_eq_nil_iff.mp hsent.symm
  rcases hall (0, accountRow "a" "5") (List.mem_singleton_self _) with hdone | hbuffered
  · exact absurd hdone List.not_mem_nil
  · exact absurd hbuffered List.not_mem_nil

/-- The statement has every value of the row at its column. -/
def Covers (row : Row) : Stmt → Prop
  | .insert _ columns values => row.kind = .insert ∧ columns.map row.literal ∈ values ∧
      ∀ c v, row.get c = some v → c ∈ columns
  | .update _ sets pkCol pkVal => row.kind = .update ∧ pkVal = row.literal pkCol ∧
      ∀ c v, row.get c = some v → c = pkCol ∨ (c, Row.toSqlLiteral v) ∈ sets
  | .delete _ pkCol pkVals => row.kind = .delete ∧
      (∃ v, row.get pkCol = some v ∧ Row.toSqlLiteral v ∈ pkVals) ∧
      ∀ c v, row.get c = some v → c = pkCol

/-- The count is that of the operations taken, and each of them is covered by a statement that
carries it and was sent. -/
structure ReportsIssued (b : WriteBuffer) (table : String) (w w' : World V) (n : ℕ) : Prop where
  count : n = (rowsOf w table).length
  sent : w'.sent = w.sent ++ (plan b table (Shared.numbered (rowsOf w table))).map Prod.fst
  covered : ∀ x ∈ Shared.numbered (rowsOf w table),
    ∃ p ∈ plan b table (Shared.numbered (rowsOf w table)), x.1 ∈ p.2 ∧ Covers x.2 p.1

/-- The buffer knows what the operation is about: the table and the columns of an insert; those of
an update and the key, with another column to set; the key of a delete, which is its column. -/
def Known (b : WriteBuffer) (table : String) (row : Row) : Prop :=
  match row.kind with
  | .insert => ∃ cols, b.tableColumns table = some cols ∧ ∀ c v, row.get c = some v → c ∈ cols
  | .update => ∃ cols pk, b.tableColumns table = some cols ∧ b.pkColumns table = some pk ∧
      (∃ c ∈ cols, c ≠ pk ∧ (row.get c).isSome = true) ∧
      ∀ c v, row.get c = some v → c = pk ∨ c ∈ cols
  | .delete => ∃ pk, b.pkColumns table = some pk ∧ (row.get pk).isSome = true ∧
      ∀ c v, row.get c = some v → c = pk

theorem mem_numberedOf {rows : List Numbered} {x : Numbered} (h : x ∈ rows) {k : Row.Kind}
    (hk : x.2.kind = k) : x ∈ numberedOf k rows :=
  List.mem_filter.mpr ⟨h, decide_eq_true hk⟩

theorem mem_updateSets {cols : List String} {pk c lit : String} {row : Row} :
    (c, lit) ∈ updateSets cols pk row ↔
      c ∈ cols ∧ c ≠ pk ∧ ∃ v, row.get c = some v ∧ lit = Row.toSqlLiteral v := by
  unfold updateSets
  rw [List.mem_filterMap]
  constructor
  · rintro ⟨c', hc', hpair⟩
    obtain ⟨hcol, hne⟩ := List.mem_filter.mp hc'
    obtain ⟨v, hv, heq⟩ := Option.map_eq_some_iff.mp hpair
    obtain ⟨rfl, rfl⟩ := Prod.mk.inj heq
    exact ⟨hcol, of_decide_eq_true hne, v, hv, rfl⟩
  · rintro ⟨hcol, hne, v, hv, rfl⟩
    exact ⟨c, List.mem_filter.mpr ⟨hcol, decide_eq_true hne⟩, by rw [hv]; rfl⟩

theorem covers_of_known {rows : List Numbered} {x : Numbered} (hx : x ∈ rows)
    (h : Known b table x.2) : ∃ p ∈ plan b table rows, x.1 ∈ p.2 ∧ Covers x.2 p.1 := by
  unfold Known at h
  cases hkind : x.2.kind with
  | insert =>
    rw [hkind] at h
    obtain ⟨cols, hcols, hknown⟩ := h
    have hmem := mem_numberedOf hx hkind
    refine ⟨(insertStmt table cols ((numberedOf .insert rows).map Prod.snd),
      (numberedOf .insert rows).map Prod.fst), List.mem_append_left _ ?_, List.mem_map_of_mem hmem,
      hkind, ?_, hknown⟩
    · unfold insertPlan
      rw [hcols]
      dsimp only
      rw [if_neg (mt List.isEmpty_iff.mp (List.ne_nil_of_mem hmem))]
      exact List.mem_singleton_self _
    · exact List.mem_map_of_mem (List.mem_map_of_mem hmem)
  | update =>
    rw [hkind] at h
    obtain ⟨cols, pk, hcols, hpk, ⟨c, hc, hne, hsome⟩, hknown⟩ := h
    obtain ⟨v, hv⟩ := Option.isSome_iff_exists.mp hsome
    have hsets : updateSets cols pk x.2 ≠ [] :=
      List.ne_nil_of_mem (mem_updateSets.mpr ⟨hc, hne, v, hv, rfl⟩)
    refine ⟨(.update table (updateSets cols pk x.2) pk (x.2.literal pk), [x.1]),
      List.mem_append_right _ (List.mem_append_left _ ?_), List.mem_singleton_self _, hkind, rfl, ?_⟩
    · unfold updatePlan
      rw [hcols, hpk]
      refine List.mem_flatMap.mpr ⟨x, mem_numberedOf hx hkind, ?_⟩
      unfold updateStmt
      rw [if_neg (mt List.isEmpty_iff.mp hsets)]
      exact List.mem_singleton_self _
    · intro a u hu
      by_cases ha : a = pk
      · exact Or.inl ha
      · exact Or.inr (mem_updateSets.mpr ⟨(hknown a u hu).resolve_left ha, ha, u, hu, rfl⟩)
  | delete =>
    rw [hkind] at h
    obtain ⟨pk, hpk, hsome, hknown⟩ := h
    obtain ⟨v, hv⟩ := Option.isSome_iff_exists.mp hsome
    have hmem := mem_numberedOf hx hkind
    have hkey : Row.toSqlLiteral v ∈ deleteKeys pk ((numberedOf .delete rows).map Prod.snd) :=
      List.mem_filterMap.mpr ⟨x.2, List.mem_map_of_mem hmem, by rw [hv]; rfl⟩
    refine ⟨(.delete table pk (deleteKeys pk ((numberedOf .delete rows).map Prod.snd)),
      ((numberedOf .delete rows).filter fun x => (x.2.get pk).isSome).map Prod.fst),
      List.mem_append_right _ (List.mem_append_right _ ?_),
      List.mem_map_of_mem (List.mem_filter.mpr ⟨hmem, hsome⟩), hkind, ⟨v, hv, hkey⟩, hknown⟩
    unfold deletePlan
    rw [hpk]
    dsimp only
    rw [if_neg (mt List.isEmpty_iff.mp (List.ne_nil_of_mem hkey))]
    exact List.mem_singleton_self _

theorem known_of_covers {rows : List Row} {x : Numbered} (hx : x ∈ Shared.numbered rows)
    {p : Stmt × List ℕ} (hp : p ∈ plan b table (Shared.numbered rows)) (hcarries : x.1 ∈ p.2)
    (h : Covers x.2 p.1) : Known b table x.2 := by
  unfold Known
  rcases List.mem_append.mp hp with hp | hp
  · unfold insertPlan at hp
    split at hp
    · rename_i cols hcols
      split_ifs at hp
      · cases hp
      · obtain rfl := List.mem_singleton.mp hp
        obtain ⟨hkind, -, hknown⟩ := h
        rw [hkind]
        exact ⟨cols, hcols, hknown⟩
    · cases hp
  · rcases List.mem_append.mp hp with hp | hp
    · unfold updatePlan at hp
      split at hp
      · rename_i cols pk hcols hpk
        obtain ⟨y, hy, hstmt⟩ := List.mem_flatMap.mp hp
        obtain ⟨s, hs, rfl⟩ := List.mem_map.mp hstmt
        -- the one operation that the statement carries is this one
        have hxy : x = y := List.inj_on_of_nodup_map (Shared.nodup_numbered rows) hx
          (List.mem_filter.mp hy).1 (List.mem_singleton.mp hcarries)
        subst hxy
        unfold updateStmt at hs
        split_ifs at hs with hsets
        · cases hs
        · obtain rfl := List.mem_singleton.mp hs
          obtain ⟨hkind, -, hknown⟩ := h
          rw [hkind]
          obtain ⟨⟨c, lit⟩, hc⟩ := List.exists_mem_of_ne_nil _ (mt List.isEmpty_iff.mpr hsets)
          obtain ⟨hcol, hne, v, hv, -⟩ := mem_updateSets.mp hc
          refine ⟨cols, pk, hcols, hpk, ⟨c, hcol, hne, by rw [hv]; rfl⟩, fun a u hu => ?_⟩
          exact (hknown a u hu).imp id fun hmem => (mem_updateSets.mp hmem).1
      · cases hp
    · unfold deletePlan at hp
      split at hp
      · rename_i pk hpk
        split_ifs at hp
        · cases hp
        · obtain rfl := List.mem_singleton.mp hp
          obtain ⟨hkind, ⟨v, hv, -⟩, hknown⟩ := h
          rw [hkind]
          exact ⟨pk, hpk, by rw [hv]; rfl, hknown⟩
      · cases hp

/-- A flush that returns a count has issued what it counts exactly when the buffer knows all the
operations. -/
theorem flushTable_reports_iff {n : ℕ} (h : flushTable b env table w = (.ok n, w')) :
    ReportsIssued b table w w' n ↔ ∀ row ∈ rowsOf w table, Known b table row := by
  obtain ⟨hcount, hsent⟩ := flushTable_ok_sent h
  constructor
  · intro hreports row hrow
    rw [← map_snd_numbered (rowsOf w table)] at hrow
    obtain ⟨x, hx, rfl⟩ := List.mem_map.mp hrow
    obtain ⟨p, hp, hcarries, hcovers⟩ := hreports.covered x hx
    exact known_of_covers hx hp hcarries hcovers
  · intro hknown
    refine ⟨hcount, by rw [map_fst_plan, map_snd_numbered]; exact hsent, fun x hx => ?_⟩
    refine covers_of_known hx (hknown x.2 ?_)
    rw [← map_snd_numbered (rowsOf w table)]
    exact List.mem_map_of_mem hx

/-- Rows buffered for `accounts`, and a flush of them. -/
def flushedRows (rows : List Row) : Ended DbError ℕ × World String :=
  flushTable (new ⟨[accountsTable]⟩) (plainEnv ⟨[accountsTable]⟩) "accounts"
    (bufferedWorld "accounts" rows)

theorem flushTable_reports_iff_account :
    ReportsIssued (new ⟨[accountsTable]⟩) "accounts"
      (bufferedWorld "accounts" [accountRow "a" "5"]) (flushedRows [accountRow "a" "5"]).2 1 := by
  have hrun : flushedRows [accountRow "a" "5"] = (.ok 1, (flushedRows [accountRow "a" "5"]).2) := rfl
  refine (flushTable_reports_iff hrun).mpr fun row hrow => ?_
  obtain rfl : row = accountRow "a" "5" := List.mem_singleton.mp hrow
  refine ⟨["id", "balance"], rfl, fun c v hv => ?_⟩
  exact (IndexMap.mem_keys_iff _ _).mpr (by
    show ((accountRow "a" "5").get c).isSome = true
    rw [hv]
    rfl)

/-- A delete by another column than the key is counted, and nothing is sent. -/
theorem flushTable_not_reports :
    ¬∀ (env : Env String) (b : WriteBuffer) (table : String) (w w' : World String) (n : ℕ),
      flushTable b env table w = (.ok n, w') → ReportsIssued b table w w' n := by
  intro h
  let row : Row := { Row.new.insert "balance" (.text "5") with operation := some "DELETE" }
  have hcovered := (h (plainEnv ⟨[accountsTable]⟩) (new ⟨[accountsTable]⟩) "accounts"
    (bufferedWorld "accounts" [row]) (flushedRows [row]).2 1 rfl).covered
  obtain ⟨p, hp, -⟩ := hcovered (0, row) (List.mem_singleton_self _)
  have hplan : plan (new ⟨[accountsTable]⟩) "accounts"
      (Shared.numbered (rowsOf (bufferedWorld "accounts" [row]) "accounts")) = [] := by decide
  rw [hplan] at hp
  exact absurd hp List.not_mem_nil

end WriteBuffer

end ForgeIndex
