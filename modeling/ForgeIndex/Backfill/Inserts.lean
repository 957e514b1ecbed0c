import ForgeIndex.Backfill.Delivery

/-!
# Handlers that insert

A handler that inserts rows as a function of the event, and what a batch of such events leaves
in the write buffer.
-/

namespace ForgeIndex

open WriteBuffer (Holds)

variable {V : Type}

/-- `Display` of a `DbError`, up to the text of its source. -/
def DbError.message : DbError → String
  | .flush table _ => "Flush failed for table '" ++ table ++ "'"
  | .query table _ => "Query failed on table '" ++ table ++ "'"
  | .bufferFull table => "Buffer full for table '" ++ table ++ "'"

/-- `ctx.insert(table).row(row).execute()?` for each row in turn. -/
def insertAll (b : WriteBuffer) (xs : List (String × Row)) : Proc (World V) DbError Unit :=
  Proc.forEach (fun x => b.insert x.1 x.2) xs

theorem insertAll_reach (b : WriteBuffer) (xs : List (String × Row)) (w : World V) :
    Proc.Triple (fun w' => w' = w) (insertAll b xs) (fun _ w' => ∃ buffers, w' = { w with buffers })
      (fun w' => ∃ buffers, w' = { w with buffers }) := by
  refine (Proc.Triple.forEach (I := fun _ w' => ∃ buffers, w' = { w with buffers })
    fun _ x _ _ => ?_).conseq (fun w' hw => ⟨w.buffers, hw⟩) (fun _ _ h => h) fun _ h => h
  intro w' ⟨buffers, hw⟩
  subst hw
  unfold WriteBuffer.insert
  split_ifs <;> exact ⟨_, rfl⟩

/-- A handler that inserts the rows of its event and passes the first error on. -/
def insertHandler (b : WriteBuffer) (rows : DecodedEvent → List (String × Row)) :
    EventHandlerFn V where
  call e := .ok ((insertAll b (rows e)).mapErr DbError.message)
  reach e future hcall w := by
    cases hcall
    have h := (insertAll_reach b (rows e) w).mapErr (g := DbError.message) w rfl
    rcases hrun : (insertAll b (rows e)).mapErr DbError.message w with ⟨a | e | _, w'⟩ <;>
    · rw [hrun] at h
      obtain ⟨buffers, hw⟩ := h
      exact ⟨buffers, w.clock, hw⟩

/-- The rows of a list that go to a table. -/
def rowsTo (table : String) (xs : List (String × Row)) : List Row :=
  xs.filterMap fun x => if x.1 = table then some x.2 else none

@[simp] theorem rowsTo_nil (table : String) : rowsTo table [] = [] := rfl

theorem rowsTo_append (table : String) (xs ys : List (String × Row)) :
    rowsTo table (xs ++ ys) = rowsTo table xs ++ rowsTo table ys := List.filterMap_append

theorem length_rowsTo_perm {es es' : List DecodedEvent} (h : es.Perm es')
    (rows : DecodedEvent → List (String × Row)) (table : String) :
    (rowsTo table (es.flatMap rows)).length = (rowsTo table (es'.flatMap rows)).length := by
  unfold rowsTo
  exact ((h.flatMap_right rows).filterMap _).length_eq

theorem mem_rowsTo {table : String} {xs : List (String × Row)} {r : Row} :
    r ∈ rowsTo table xs ↔ (table, r) ∈ xs := by
  simp only [rowsTo, List.mem_filterMap]
  constructor
  · intro ⟨x, hx, h⟩
    split_ifs at h with ht
    cases h
    rw [← ht]
    exact hx
  · intro h
    exact ⟨(table, r), h, if_pos rfl⟩

theorem insertAll_holds (b : WriteBuffer) (xs : List (String × Row)) (B : String → List Row)
    (hfit : ∀ table, (B table ++ rowsTo table xs).length ≤ b.maxSize) {I : World V → Prop}
    (hI : ∀ w buffers, I w → I { w with buffers }) :
    Proc.Triple (fun w => Holds w B ∧ I w) (insertAll b xs)
      (fun _ w => Holds w (fun table => B table ++ rowsTo table xs) ∧ I w) (fun _ => False) := by
  refine (Proc.Triple.forEach
    (I := fun pre w => Holds w (fun table => B table ++ rowsTo table pre) ∧ I w)
    fun pre x post hxs => ?_).conseq (fun w hw => ?_) (fun _ _ h => h) fun _ h => h
  · intro w ⟨hB, hw⟩
    have hroom : ¬b.maxSize ≤ (WriteBuffer.rowsOf w x.1).length := by
      have hle := hfit x.1
      have hone : rowsTo x.1 (x :: post) = x.2 :: rowsTo x.1 post := by simp [rowsTo]
      rw [hxs, rowsTo_append, hone] at hle
      rw [hB x.1]
      simp only [List.length_append, List.length_cons] at hle ⊢
      omega
    unfold WriteBuffer.insert
    rw [if_neg hroom]
    refine ⟨fun table => ?_, hI w _ hw⟩
    show _ = B table ++ rowsTo table (pre ++ [x])
    rw [WriteBuffer.rowsOf_insert, rowsTo_append]
    split_ifs with h
    · subst h
      rw [hB x.1]
      simp [rowsTo]
    · have h' : ¬x.1 = table := fun e => h e.symm
      rw [hB table]
      simp [rowsTo, h']
  · exact ⟨fun table => by rw [hw.1 table]; simp, hw.2⟩

theorem insert_of_room (b : WriteBuffer) (t : String) (r : Row) (w : World V) (rows : List Row)
    (hroom : rows.length < b.maxSize) :
    b.insert t r { w with buffers := w.buffers.insert t rows } =
      (.ok (), { w with buffers := w.buffers.insert t (rows ++ [r]) }) := by
  have hrows : WriteBuffer.rowsOf { w with buffers := w.buffers.insert t rows } t = rows := by
    rw [WriteBuffer.rowsOf_insert, if_pos rfl]
  unfold WriteBuffer.insert
  rw [hrows, if_neg (by omega)]
  simp only [IndexMap.insert_insert_self]

theorem insertAll_of_room (b : WriteBuffer) (t : String) (r : Row) (w : World V) (k : ℕ)
    (rows : List Row) (hroom : rows.length + k ≤ b.maxSize) :
    insertAll b (List.replicate k (t, r)) { w with buffers := w.buffers.insert t rows } =
      (.ok (), { w with buffers := w.buffers.insert t (rows ++ List.replicate k r) }) := by
  induction k generalizing rows with
  | zero => simp [insertAll]
  | succ k ih =>
    have hfirst := insert_of_room b t r w rows (by omega)
    have hrest := ih (rows ++ [r]) (by simp only [List.length_append, List.length_singleton]; omega)
    rw [List.append_assoc] at hrest
    exact Proc.bind_ok_iff.mpr ⟨(), _, hfirst, hrest⟩

theorem insertAll_overfull (b : WriteBuffer) (t : String) (r r' : Row) (w : World V) {k : ℕ}
    (hmax : b.maxSize = k + 1) (hempty : WriteBuffer.rowsOf w t = []) :
    insertAll b (List.replicate (k + 1) (t, r) ++ [(t, r')]) w =
      (.err (.bufferFull t), { w with buffers := w.buffers.insert t (List.replicate (k + 1) r) }) := by
  have hfirst : b.insert t r w = (.ok (), { w with buffers := w.buffers.insert t [r] }) := by
    unfold WriteBuffer.insert
    rw [hempty, List.length_nil, if_neg (by omega)]
    rfl
  have hcopies := insertAll_of_room b t r w k [r] (by simp only [List.length_singleton]; omega)
  have hlast : b.insert t r' { w with buffers := w.buffers.insert t (List.replicate (k + 1) r) } =
      (.err (.bufferFull t), { w with buffers := w.buffers.insert t (List.replicate (k + 1) r) }) := by
    have hrows : WriteBuffer.rowsOf
        { w with buffers := w.buffers.insert t (List.replicate (k + 1) r) } t =
          List.replicate (k + 1) r := by
      rw [WriteBuffer.rowsOf_insert, if_pos rfl]
    unfold WriteBuffer.insert
    rw [hrows, List.length_replicate, if_pos (by omega)]
    simp only [IndexMap.insert_insert_self]
  unfold insertAll
  rw [Proc.forEach_append, List.replicate_succ, Proc.forEach_cons]
  change Proc.bind (Proc.bind (b.insert t r) fun _ => insertAll b (List.replicate k (t, r))) _ w = _
  unfold Proc.bind
  rw [hfirst]
  dsimp only
  rw [hcopies]
  dsimp only
  rw [Proc.forEach_singleton]
  exact hlast

namespace BackfillCoordinator

/-- Every event with a handler is handled by inserting its rows; other events insert nothing. -/
def InsertsRows (co : BackfillCoordinator V) (rows : DecodedEvent → List (String × Row)) : Prop :=
  ∀ e, co.dbHandlers e.handlerKey = some (insertHandler co.writeBuffer rows) ∨
    (co.dbHandlers e.handlerKey = none ∧ rows e = [])

variable {co : BackfillCoordinator V} {rows : DecodedEvent → List (String × Row)}

theorem callHandler_holds (hins : co.InsertsRows rows) (e : DecodedEvent) (B : String → List Row)
    (hfit : ∀ table, (B table ++ rowsTo table (rows e)).length ≤ co.writeBuffer.maxSize)
    {I : World V → Prop} (hI : ∀ w buffers clock, I w → I { w with buffers, clock }) :
    Proc.Triple (fun w => Holds w B ∧ I w) (co.callHandler e)
      (fun _ w => Holds w (fun table => B table ++ rowsTo table (rows e)) ∧ I w) I := by
  rcases hins e with hdb | ⟨hdb, hrows⟩
  · unfold callHandler
    rw [hdb]
    have hins := (insertAll_holds co.writeBuffer (rows e) B hfit
      (fun w buffers hw => hI w buffers w.clock hw)).mapErr (g := DbError.message)
    exact Proc.Triple.ignore (hins.conseq (fun _ h => h) (fun _ _ h => h) fun _ h => h.elim)
  · -- an event without a database handler can still reach one of the legacy registry
    have hsame (w : World V) (hw : Holds w B ∧ I w) :
        Holds w (fun table => B table ++ rowsTo table (rows e)) ∧ I w :=
      ⟨fun table => by rw [hw.1 table, hrows]; simp, hw.2⟩
    unfold callHandler
    rw [hdb]
    dsimp only
    split
    · split
      · exact Proc.Triple.fail fun _ hw => hw.2
      · exact Proc.Triple.stop fun _ hw => hw.2
      · exact Proc.Triple.pure hsame
    · exact Proc.Triple.pure hsame

theorem dispatchAll_holds (hins : co.InsertsRows rows) (rangeIdx : ℕ) (es : List DecodedEvent)
    (hfit : ∀ table, (rowsTo table (es.flatMap rows)).length ≤ co.writeBuffer.maxSize)
    {I : World V → Prop} (hI : ∀ w buffers clock, I w → I { w with buffers, clock })
    (hdis : ∀ w, ∀ e ∈ es, I w → I { w with dispatched := w.dispatched ++ [(rangeIdx, e)] }) :
    Proc.Triple (fun w => Holds w (fun _ => []) ∧ I w) (Proc.forEach (co.dispatch rangeIdx) es)
      (fun _ w => Holds w (fun table => rowsTo table (es.flatMap rows)) ∧ I w) I := by
  refine Proc.Triple.forEach
    (I := fun pre w => Holds w (fun table => rowsTo table (pre.flatMap rows)) ∧ I w)
    fun pre e post hes => ?_
  refine Proc.Triple.bind (Q := fun _ w => Holds w (fun table => rowsTo table (pre.flatMap rows)) ∧
    I w) ?_ fun _ => ?_
  · exact Proc.Triple.modify fun w hw => ⟨hw.1, hdis w e (by simp [hes]) hw.2⟩
  · refine (callHandler_holds hins e _ (fun table => ?_) hI).conseq (fun _ h => h)
      (fun _ w h => ?_) fun _ h => h
    · refine le_trans ?_ (hfit table)
      rw [hes, List.flatMap_append, List.flatMap_cons, rowsTo_append, rowsTo_append]
      simp only [List.length_append]
      omega
    · refine ⟨fun table => ?_, h.2⟩
      show _ = rowsTo table ((pre ++ [e]).flatMap rows)
      rw [h.1 table, List.flatMap_append, rowsTo_append]
      simp

end BackfillCoordinator

end ForgeIndex
