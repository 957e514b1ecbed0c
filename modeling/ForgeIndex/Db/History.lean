import ForgeIndex.Db.Replay
import ForgeIndex.Lib.UndoLog

/-!
# Recorded histories

A history changes the rows of one table and records every change with `record_flush`.  The replay
of a shadow row undoes its change, unless a constraint of the table stands in the way.
-/

namespace ForgeIndex

open KeyedOps UndoLog

variable {V : Type}

/-- A change of one row of a table: the key, the row before and the row after. -/
abbrev RowChange (V : Type) := Change ℕ V String (Option V)

namespace RowChange

/-- What `record_flush` is given: the inserted row, or the row before. -/
def image (c : RowChange V) : Option (Tuple V) := c.before.or c.after

def operation (c : RowChange V) : Operation :=
  match c.before, c.after with
  | none, _ => .insert
  | some _, some _ => .update
  | some _, none => .delete

end RowChange

/-- The value of a text column: the driver reads it as a `String`, and the string in quotes denotes
it. -/
def IsText (env : Env V) (table col : String) (v : V) : Prop :=
  ∃ s, env.text v = some s ∧ env.value table col ("'" ++ Row.doubleQuotes s ++ "'") = some v

/-- The driver reads the key as a string without a quote. -/
def QuoteFree (env : Env V) (k : V) : Prop := ∀ s, env.text k = some s → '\'' ∉ s.toList

/-- A row of a table of text columns, with a key that needs no quoting. -/
structure TextRow (env : Env V) (d : TableDef) (pk : String) (r : Tuple V) : Prop where
  columns : ∀ c, c ∉ d.columnNames → r c = none
  notNull : ∀ c ∈ d.notNull, (r c).isSome
  text : ∀ c v, r c = some v → IsText env d.name c v
  quoteFree : ∀ k, r pk = some k → QuoteFree env k

/-- The rows of a table of text columns, one for each key. -/
structure TextTable (env : Env V) (d : TableDef) (pk : String) (t : Table V) : Prop where
  row : ∀ r ∈ t, TextRow env d pk r
  unique : t.Pairwise fun r s => r pk ≠ s pk

variable [DecidableEq V]

/-- An effective operation on one row, recorded with `record_flush`: the insert of an absent key
with the row, the update or delete of a present key with the row before. -/
structure RecordedStep (env : Env V) (d : TableDef) (pk : String) (c : RowChange V)
    (w w' : World V) : Prop where
  finds : keyed pk (w.tables d.name) c.key = c.before
  effective : c.before.isSome ∨ c.after.isSome
  leaves : keyed pk (w'.tables d.name) = Function.update (keyed pk (w.tables d.name)) c.key c.after
  stored : TextTable env d pk (w'.tables d.name)
  recorded : ∃ row blockNumber w₁ w₂, c.block = blockNumber.toNat ∧
    (∀ r, c.image = some r → ∀ col ∈ d.columnNames,
      env.value d.name col (row.literal col) = r col) ∧
    w₁.shadow d.name = w.shadow d.name ∧
    ReorgStore.recordFlush env d.name [row] c.operation blockNumber d.columnNames w₁ =
      (.ok (), w₂) ∧
    w'.shadow d.name = w₂.shadow d.name

/-- `record_flush` was given the row of a change. -/
def RecordedBy (env : Env V) (d : TableDef) (c : RowChange V) (w w' : World V) : Prop :=
  ∃ row blockNumber w₁ w₂, c.block = blockNumber.toNat ∧
    (∀ r, c.image = some r → ∀ col ∈ d.columnNames,
      env.value d.name col (row.literal col) = r col) ∧
    w₁.shadow d.name = w.shadow d.name ∧
    ReorgStore.recordFlush env d.name [row] c.operation blockNumber d.columnNames w₁ =
      (.ok (), w₂) ∧
    w'.shadow d.name = w₂.shadow d.name

/-- A run of recorded operations on one table, between which anything may happen that touches
neither the table nor its shadow table. -/
inductive History (env : Env V) (d : TableDef) (pk : String) :
    World V → List (RowChange V) → World V → Prop
  | start (w : World V) : History env d pk w [] w
  | other {w w₁ w₂ : World V} {cs : List (RowChange V)} : History env d pk w cs w₁ →
      w₂.tables d.name = w₁.tables d.name → w₂.shadow d.name = w₁.shadow d.name →
      History env d pk w cs w₂
  | op {w w₁ w₂ : World V} {cs : List (RowChange V)} {c : RowChange V} :
      History env d pk w cs w₁ → RecordedStep env d pk c w₁ w₂ → History env d pk w (cs ++ [c]) w₂

/-- The shadow row of a change. -/
def shadowOf (c : RowChange V) : ShadowRow V :=
  ⟨c.image.getD fun _ => none, c.operation.inverse, (UInt64.ofNat c.block).toInt64⟩

section Text

variable {env : Env V} {d : TableDef} {pk : String} {t t' : Table V}

omit [DecidableEq V] in
theorem TextRow.toStored {r : Tuple V} (h : TextRow env d pk r) : StoredRow d r :=
  ⟨h.columns, h.notNull⟩

omit [DecidableEq V] in
theorem TextTable.toStored (h : TextTable env d pk t) : StoredTable d pk t :=
  ⟨fun r hr => (h.row r hr).toStored, h.unique⟩

theorem TextTable.of_keyed (hpk : d.pk = some pk) (ht : StoredTable d pk t)
    (hrows : ∀ k r, keyed pk t k = some r → TextRow env d pk r) : TextTable env d pk t := by
  refine ⟨fun r hr => ?_, ht.unique⟩
  obtain ⟨k, hk⟩ := Option.isSome_iff_exists.mp
    ((ht.row r hr).notNull pk (TableDef.pk_mem_notNull hpk))
  exact hrows k r (keyed_of_mem ht.unique hr hk)

end Text

section History

variable {env : Env V} {d : TableDef} {pk : String} {w w' : World V} {cs : List (RowChange V)}
  {c : RowChange V}

omit [DecidableEq V] in
theorem recordFlush_ok (hd : env.schema.find d.name = some d) {row : Row} {op : Operation}
    {blockNumber : UInt64}
    (h : ReorgStore.recordFlush env d.name [row] op blockNumber d.columnNames w = (.ok (), w')) :
    blockNumber.toNat < 2 ^ 63 ∧ w'.shadow d.name = w.shadow d.name ++
      [⟨tupleOf env d.name d.columnNames (d.columnNames.map row.literal), op.inverse,
        blockNumber.toInt64⟩] := by
  unfold ReorgStore.recordFlush at h
  rw [Proc.forEach_singleton] at h
  obtain ⟨_, w₁, hsend, hinsert⟩ := Proc.bind_ok_iff.mp (Proc.mapErr_ok_iff.mp h)
  have hw₁ := send_ok hsend
  unfold ReorgStore.insertShadow at hinsert
  rw [hd] at hinsert
  dsimp only at hinsert
  split at hinsert
  · cases hinsert
  · rename_i hguard
    cases hinsert
    simp only [Bool.or_eq_true, decide_eq_true_eq, not_or, not_le] at hguard
    rw [hw₁]
    exact ⟨hguard.1, by simp⟩

theorem RecordedStep.image_some (h : RecordedStep env d pk c w w') :
    ∃ r, c.image = some r := by
  unfold RowChange.image
  rcases h.effective with hs | hs <;> obtain ⟨r, hr⟩ := Option.isSome_iff_exists.mp hs
  · exact ⟨r, by rw [hr]; rfl⟩
  · cases hb : c.before with
    | none => exact ⟨r, by rw [hr]; rfl⟩
    | some r' => exact ⟨r', rfl⟩

theorem RecordedStep.textRow (h : RecordedStep env d pk c w w')
    (hw : TextTable env d pk (w.tables d.name)) {r : Tuple V} (hr : c.image = some r) :
    TextRow env d pk r ∧ r pk = some c.key := by
  unfold RowChange.image at hr
  cases hb : c.before with
  | some r' =>
    rw [hb] at hr
    cases hr
    obtain ⟨hmem, hkey⟩ := keyed_eq_some (h.finds.trans hb)
    exact ⟨hw.row _ hmem, hkey⟩
  | none =>
    rw [hb] at hr
    have hafter : keyed pk (w'.tables d.name) c.key = some r := by
      rw [h.leaves, Function.update_self]
      exact hr
    obtain ⟨hmem, hkey⟩ := keyed_eq_some hafter
    exact ⟨h.stored.row _ hmem, hkey⟩

omit [DecidableEq V] in
theorem shadow_of_recorded (hd : env.schema.find d.name = some d) (h : RecordedBy env d c w w')
    {r : Tuple V} (himage : c.image = some r) (hr : StoredRow d r) :
    c.block < 2 ^ 63 ∧ w'.shadow d.name = w.shadow d.name ++ [shadowOf c] := by
  obtain ⟨row, blockNumber, w₁, w₂, hblock, hshows, hw₁, hrecord, hw'⟩ := h
  obtain ⟨hlt, hshadow⟩ := recordFlush_ok hd hrecord
  refine ⟨by rw [hblock]; exact hlt, ?_⟩
  have htuple : tupleOf env d.name d.columnNames (d.columnNames.map row.literal) = r := by
    funext col
    rw [tupleOf_literals]
    split_ifs with hcol
    · exact hshows r himage col hcol
    · exact (hr.columns col hcol).symm
  rw [hw', hshadow, hw₁, htuple]
  simp [shadowOf, himage, hblock]

theorem RecordedStep.shadow (hd : env.schema.find d.name = some d)
    (h : RecordedStep env d pk c w w') (hw : TextTable env d pk (w.tables d.name)) :
    c.block < 2 ^ 63 ∧ w'.shadow d.name = w.shadow d.name ++ [shadowOf c] := by
  obtain ⟨r, hr⟩ := h.image_some
  exact shadow_of_recorded hd h.recorded hr (h.textRow hw hr).1.toStored

/-- What a history leaves: the table of its last change and one shadow row for each change. -/
structure History.Left (env : Env V) (d : TableDef) (pk : String) (w : World V)
    (cs : List (RowChange V)) (w' : World V) : Prop where
  follows : Follows (keyed pk (w.tables d.name)) cs
  table : keyed pk (w'.tables d.name) = applyAll (keyed pk (w.tables d.name)) cs
  stored : TextTable env d pk (w'.tables d.name)
  shadow : w'.shadow d.name = w.shadow d.name ++ cs.map shadowOf
  block : ∀ c ∈ cs, c.block < 2 ^ 63
  image : ∀ c ∈ cs, ∃ r, c.image = some r ∧ TextRow env d pk r ∧ r pk = some c.key

theorem History.left (hd : env.schema.find d.name = some d)
    (hw : TextTable env d pk (w.tables d.name)) (h : History env d pk w cs w') :
    History.Left env d pk w cs w' := by
  induction h with
  | start =>
    exact ⟨trivial, rfl, hw, by simp, fun _ hc => by simp at hc, fun _ hc => by simp at hc⟩
  | other h htables hshadow ih =>
    obtain ⟨hfollows, htable, hstored, hsh, hblock, himage⟩ := ih
    exact ⟨hfollows, by rw [htables, htable], by rw [htables]; exact hstored,
      by rw [hshadow, hsh], hblock, himage⟩
  | op h hstep ih =>
    rename_i w₁ w₂ cs c
    obtain ⟨hfollows, htable, hstored, hsh, hblock, himage⟩ := ih
    obtain ⟨hlt, hshadow⟩ := hstep.shadow hd hstored
    obtain ⟨r, hr⟩ := hstep.image_some
    refine ⟨follows_append.mpr ⟨hfollows, ?_⟩, ?_, hstep.stored, ?_, ?_, ?_⟩
    · rw [← htable]
      exact ⟨hstep.finds, hstep.effective, trivial⟩
    · rw [applyAll_append, ← htable]
      exact hstep.leaves
    · rw [hshadow, hsh, List.map_append, List.append_assoc]
      rfl
    · intro c' hc'
      rcases List.mem_append.mp hc' with hc' | hc'
      · exact hblock c' hc'
      · rw [List.mem_singleton.mp hc']
        exact hlt
    · intro c' hc'
      rcases List.mem_append.mp hc' with hc' | hc'
      · exact himage c' hc'
      · rw [List.mem_singleton.mp hc']
        exact ⟨r, hr, hstep.textRow hstored hr⟩

end History

section Literals

variable {env : Env V} {d : TableDef} {pk : String} {r : Tuple V} {s : ShadowRow V}

omit [DecidableEq V] in
theorem TextRow.denotes (hr : TextRow env d pk r) (hs : s.columns = r) {c : String}
    (hc : c ∈ d.columnNames) : Denotes env d s r c := by
  unfold Denotes ReorgStore.replayLiteral ReorgStore.readText
  rw [if_pos hc, hs]
  cases hv : r c with
  | none => exact env.value_null _ _
  | some v =>
    obtain ⟨str, htext, hvalue⟩ := hr.text c v hv
    rw [Option.bind_some, htext]
    exact hvalue

omit [DecidableEq V] in
/-- The key is read as a string that, put between quotes as it is, denotes the key. -/
theorem TextRow.keyDenotes (hpk : d.pk = some pk) (hr : TextRow env d pk r) (hs : s.columns = r)
    {k : V} (hk : r pk = some k) : KeyDenotes env d pk s k := by
  obtain ⟨str, htext, hvalue⟩ := hr.text pk k hk
  refine ⟨str, ?_, ?_⟩
  · unfold ReorgStore.readText
    rw [if_pos (TableDef.pk_mem_columnNames hpk), hs, hk, Option.bind_some, htext]
  · rw [doubleQuotes_of_quoteFree (hr.quoteFree k hk str htext)] at hvalue
    exact hvalue

end Literals

section Replay

variable {env : Env V} {d : TableDef} {pk : String} {w : World V} {c : RowChange V} {r : Tuple V}

/-- The change has been undone in the table, and nothing else has been touched. -/
structure Undone (env : Env V) (d : TableDef) (pk : String) (c : RowChange V) (w w' : World V) :
    Prop where
  table : keyed pk (w'.tables d.name) = applyOp (keyed pk (w.tables d.name)) (c.key, c.undo)
  stored : TextTable env d pk (w'.tables d.name)
  others : ∀ name, name ≠ d.name → w'.tables name = w.tables name
  shadow : w'.shadow = w.shadow

omit [DecidableEq V] in
theorem RowChange.undo_cases (himage : c.image = some r) :
    (c.operation = .insert ∧ c.undo = .delete) ∨ (c.operation = .delete ∧ c.undo = .insert r) ∨
      (c.operation = .update ∧ c.undo = .update fun x => some (r x)) := by
  unfold RowChange.image at himage
  unfold RowChange.operation Change.undo
  cases hb : c.before with
  | none => exact .inl ⟨rfl, rfl⟩
  | some r' =>
    rw [hb] at himage
    cases himage
    cases c.after with
    | none => exact .inr (.inl ⟨rfl, rfl⟩)
    | some r'' => exact .inr (.inr ⟨rfl, rfl⟩)

theorem textTable_of_undo (hpk : d.pk = some pk) (hw : TextTable env d pk (w.tables d.name))
    (himage : c.image = some r) (hr : TextRow env d pk r) {t : Table V}
    (ht : StoredTable d pk t)
    (htable : keyed pk t = applyOp (keyed pk (w.tables d.name)) (c.key, c.undo)) :
    TextTable env d pk t := by
  have hold (k : V) (r' : Tuple V) (h : keyed pk (w.tables d.name) k = some r') :
      TextRow env d pk r' := hw.row r' (keyed_eq_some h).1
  apply TextTable.of_keyed hpk ht
  intro k r' hkeyed
  rw [htable] at hkeyed
  unfold applyOp at hkeyed
  by_cases hk : k = c.key
  · subst hk
    rw [Function.update_self] at hkeyed
    dsimp only at hkeyed
    rcases RowChange.undo_cases himage with ⟨-, hundo⟩ | ⟨-, hundo⟩ | ⟨-, hundo⟩ <;>
      rw [hundo] at hkeyed <;> unfold Act.run at hkeyed
    · cases hkeyed
    · cases hx : keyed pk (w.tables d.name) c.key with
      | none =>
        rw [hx] at hkeyed
        cases hkeyed
        exact hr
      | some r₀ =>
        rw [hx] at hkeyed
        cases hkeyed
        exact hold c.key _ hx
    · obtain ⟨r₀, -, rfl⟩ := Option.map_eq_some_iff.mp hkeyed
      exact hr
  · rw [Function.update_of_ne hk] at hkeyed
    exact hold k r' hkeyed

theorem replayRow_undone (hd : env.schema.find d.name = some d) (hpk : d.pk = some pk)
    (hfate : ∀ n, env.fate n = .executed) (hw : TextTable env d pk (w.tables d.name))
    (himage : c.image = some r) (hr : TextRow env d pk r) (hk : r pk = some c.key)
    (hadm : ∀ t, TextTable env d pk t →
      keyed pk t = applyOp (keyed pk (w.tables d.name)) (c.key, c.undo) → Admitted env d w t) :
    ∃ w', ReorgStore.replayRow env d.name pk d.columnNames (shadowOf c) w = (.ok (), w') ∧
      Undone env d pk c w w' := by
  have hs : (shadowOf c).columns = r := by simp [shadowOf, himage]
  have hop : (shadowOf c).operation = c.operation.inverse := rfl
  have hallowed : Allowed env d pk (c.key, c.undo) w := fun t ht htable =>
    hadm t (textTable_of_undo hpk hw himage hr ht htable) htable
  have happlied {w' : World V} (h : Applied d pk (c.key, c.undo) w w') :
      Undone env d pk c w w' :=
    ⟨h.table, textTable_of_undo hpk hw himage hr h.stored h.table, h.others, h.shadow⟩
  have hkey := hr.keyDenotes hpk hs hk
  unfold ReorgStore.replayRow
  rw [hop]
  rcases RowChange.undo_cases himage with ⟨hop, hundo⟩ | ⟨hop, hundo⟩ | ⟨hop, hundo⟩ <;>
    rw [hop] <;> rw [hundo] at hallowed happlied
  · obtain ⟨w', hrun, hw'⟩ := replayDelete_applied hd hfate hw.toStored hkey hallowed
    exact ⟨w', hrun, happlied hw'⟩
  · obtain ⟨w', hrun, hw'⟩ := replayInsert_applied hd hpk hfate hw.toStored hr.toStored hk
      (fun c hc => hr.denotes hs hc) hallowed
    exact ⟨w', hrun, happlied hw'⟩
  · obtain ⟨str, htext, hvalue⟩ := hkey
    obtain ⟨w', hrun, hw'⟩ := replayUpdate_applied hd hfate hw.toStored hr.toStored hk
      (fun c hc _ => hr.denotes hs hc) htext (fun _ => hvalue) hallowed
    exact ⟨w', hrun, happlied hw'⟩

end Replay

end ForgeIndex
