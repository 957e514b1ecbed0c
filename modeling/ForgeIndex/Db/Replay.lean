import ForgeIndex.Db.Flush
import ForgeIndex.Db.Reorg

/-!
# The replay of one shadow row

What the statements of the replay make of a table whose columns have any type.  They put a row back
when the literals that they write denote its values.
-/

namespace ForgeIndex

open KeyedOps

variable {V : Type}

/-- A row that the columns of a table admit. -/
structure StoredRow (d : TableDef) (r : Tuple V) : Prop where
  columns : ∀ c, c ∉ d.columnNames → r c = none
  notNull : ∀ c ∈ d.notNull, (r c).isSome

/-- The rows of a table, one for each key. -/
structure StoredTable (d : TableDef) (pk : String) (t : Table V) : Prop where
  row : ∀ r ∈ t, StoredRow d r
  unique : t.Pairwise fun r s => r pk ≠ s pk

variable [DecidableEq V]

/-- The rows satisfy the unique indexes of the table and, beside the other tables, the foreign
keys of the schema. -/
def Admitted (env : Env V) (d : TableDef) (w : World V) (t : Table V) : Prop :=
  duplicates d.uniqueSets t = false ∧
    refsHold env.schema (Function.update w.tables d.name t) = true

section Keyed

variable {env : Env V} {d : TableDef} {pk : String} {w : World V} {t t' : Table V}

theorem keyed_eq_some {k : V} {r : Tuple V} (h : keyed pk t k = some r) : r ∈ t ∧ r pk = some k :=
  ⟨List.mem_of_find?_eq_some h, by simpa using List.find?_some h⟩

theorem keyed_of_mem (hunique : t.Pairwise fun r s => r pk ≠ s pk) {r : Tuple V} (hr : r ∈ t)
    {k : V} (hk : r pk = some k) : keyed pk t k = some r := by
  induction t with
  | nil => simp at hr
  | cons s t ih =>
    obtain ⟨hs, hunique⟩ := List.pairwise_cons.mp hunique
    rcases List.mem_cons.mp hr with rfl | hr
    · simp [keyed, hk]
    · have hne : ¬s pk = some k := fun h => hs r hr (h.trans hk.symm)
      simpa [keyed, hne] using ih hunique hr

/-- Tables with a key in every row and the same row for every key hold the same rows. -/
theorem StoredTable.perm_of_keyed_eq (hpk : d.pk = some pk) (ht : StoredTable d pk t)
    (ht' : StoredTable d pk t') (h : keyed pk t = keyed pk t') : t.Perm t' := by
  have hnodup {u : Table V} (hu : StoredTable d pk u) : u.Nodup :=
    hu.unique.imp fun hne heq => hne (by rw [heq])
  have hsub {u u' : Table V} (hu : StoredTable d pk u) (hu' : keyed pk u = keyed pk u')
      (r : Tuple V) (hr : r ∈ u) : r ∈ u' := by
    obtain ⟨k, hk⟩ := Option.isSome_iff_exists.mp
      ((hu.row r hr).notNull pk (TableDef.pk_mem_notNull hpk))
    have hkeyed := keyed_of_mem hu.unique hr hk
    rw [hu'] at hkeyed
    exact (keyed_eq_some hkeyed).1
  rw [List.perm_ext_iff_of_nodup (hnodup ht) (hnodup ht')]
  exact fun r => ⟨hsub ht h r, hsub ht' h.symm r⟩

theorem conflicts_comm (uniques : List (List String)) (r s : Tuple V) :
    conflicts uniques r s = conflicts uniques s r := by
  have hagree (cs : List String) : agreeOn cs r s = agreeOn cs s r := by
    unfold agreeOn
    congr 1
    funext c
    cases hr : r c <;> cases hs : s c <;> simp [eq_comm]
  unfold conflicts
  simp only [hagree]

theorem pairwise_of_admitted {w : World V} (h : Admitted env d w t) :
    t.Pairwise fun r s => conflicts d.uniqueSets r s = false := by
  have hdup := h.1
  simpa [duplicates] using hdup

theorem Admitted.perm (h : Admitted env d w t) (hperm : t.Perm t') : Admitted env d w t' := by
  constructor
  · have hpair := pairwise_of_admitted h
    have hpair' := (hperm.pairwise_iff fun {r s} hrs => by rw [conflicts_comm]; exact hrs).mp hpair
    simpa [duplicates] using hpair'
  · have hmem (name : String) (r : Tuple V) : r ∈ Function.update w.tables d.name t' name ↔
        r ∈ Function.update w.tables d.name t name := by
      by_cases hname : name = d.name
      · rw [hname, Function.update_self, Function.update_self]
        exact hperm.mem_iff.symm
      · rw [Function.update_of_ne hname, Function.update_of_ne hname]
    have hrefs := h.2
    unfold refsHold at hrefs ⊢
    simp only [List.all_eq_true] at hrefs ⊢
    intro d' hd' col hcol
    have hcol' := hrefs d' hd' col hcol
    cases hr : col.references with
    | none => rfl
    | some ref =>
      rw [hr] at hcol'
      dsimp only at hcol' ⊢
      rw [List.all_eq_true] at hcol' ⊢
      intro r hr
      have hrow := hcol' r ((hmem _ _).mp hr)
      rw [Bool.or_eq_true] at hrow ⊢
      refine hrow.imp_right fun hany => ?_
      obtain ⟨s, hs, heq⟩ := List.any_eq_true.mp hany
      exact List.any_eq_true.mpr ⟨s, (hmem _ _).mpr hs, heq⟩

end Keyed

section Literals

variable {env : Env V} {d : TableDef} {pk : String} {r : Tuple V} {s : ShadowRow V}

theorem doubleQuotes_of_quoteFree {s : String} (h : '\'' ∉ s.toList) : Row.doubleQuotes s = s := by
  have hsame (l : List Char) (hl : '\'' ∉ l) :
      (l.flatMap fun c => if c = '\'' then ['\'', '\''] else [c]) = l := by
    induction l with
    | nil => rfl
    | cons c l ih =>
      rw [List.mem_cons, not_or] at hl
      rw [List.flatMap_cons, if_neg fun hc => hl.1 hc.symm, ih hl.2]
      rfl
  unfold Row.doubleQuotes
  rw [hsame _ h, String.ofList_toList]

omit [DecidableEq V] in
theorem find?_replaySets (cols : List String) (s : ShadowRow V) (c : String) :
    (ReorgStore.replaySets env pk cols s).find? (fun p => p.1 = c) =
      if c ∈ cols ∧ c ≠ pk then some (c, ReorgStore.replayLiteral env cols s c) else none := by
  unfold ReorgStore.replaySets
  suffices h : ∀ l : List String,
      ((l.filter fun c => c ≠ pk).map fun c => (c, ReorgStore.replayLiteral env cols s c)).find?
        (fun p => p.1 = c) =
      if c ∈ l ∧ c ≠ pk then some (c, ReorgStore.replayLiteral env cols s c) else none from h cols
  intro l
  induction l with
  | nil => simp
  | cons a l ih =>
    by_cases ha : a = pk
    · subst ha
      by_cases hc : c = a
      · subst hc
        simp
      · simpa [hc] using ih
    · by_cases hac : a = c
      · subst hac
        simp [ha]
      · have hca : ¬c = a := fun h => hac h.symm
        simpa [ha, hac, hca] using ih

omit [DecidableEq V] in
theorem replaySets_isEmpty_iff (cols : List String) (s : ShadowRow V) :
    (ReorgStore.replaySets env pk cols s).isEmpty = true ↔ ∀ c ∈ cols, c = pk := by
  unfold ReorgStore.replaySets
  rw [List.isEmpty_iff, List.map_eq_nil_iff, List.filter_eq_nil_iff]
  simp

/-- The literal that the replay of a shadow row writes for a column denotes the value of a row. -/
def Denotes (env : Env V) (d : TableDef) (s : ShadowRow V) (r : Tuple V) (c : String) : Prop :=
  env.value d.name c (ReorgStore.replayLiteral env d.columnNames s c) = r c

omit [DecidableEq V] in
theorem tupleOf_replay (s : ShadowRow V) (c : String) :
    tupleOf env d.name d.columnNames
        (d.columnNames.map (ReorgStore.replayLiteral env d.columnNames s)) c =
      if c ∈ d.columnNames then
        env.value d.name c (ReorgStore.replayLiteral env d.columnNames s c) else none := by
  unfold tupleOf
  rw [find?_zip_map]
  split_ifs <;> rfl

omit [DecidableEq V] in
theorem setColumns_replay (s : ShadowRow V) (r : Tuple V) (c : String) :
    setColumns env d.name (ReorgStore.replaySets env pk d.columnNames s) r c =
      if c ∈ d.columnNames ∧ c ≠ pk then
        env.value d.name c (ReorgStore.replayLiteral env d.columnNames s c) else r c := by
  unfold setColumns
  rw [find?_replaySets]
  by_cases hc : c ∈ d.columnNames ∧ c ≠ pk
  · simp only [if_pos hc]
  · simp only [if_neg hc]

omit [DecidableEq V] in
theorem setColumns_replaySets (hden : ∀ c ∈ d.columnNames, c ≠ pk → Denotes env d s r c)
    (r' : Tuple V) (c : String) :
    setColumns env d.name (ReorgStore.replaySets env pk d.columnNames s) r' c =
      assign (fun c => if c ∈ d.columnNames ∧ c ≠ pk then some (r c) else none) r' c := by
  rw [setColumns_replay]
  unfold assign
  by_cases hc : c ∈ d.columnNames ∧ c ≠ pk
  · simp only [if_pos hc]
    exact hden c hc.1 hc.2
  · simp only [if_neg hc]
    rfl

omit [DecidableEq V] in
theorem assign_replay {r' : Tuple V} (hr : StoredRow d r) (hr' : StoredRow d r')
    (hk : r' pk = r pk) :
    assign (fun c => if c ∈ d.columnNames ∧ c ≠ pk then some (r c) else none) r' = r := by
  funext c
  unfold assign
  by_cases hc : c ∈ d.columnNames
  · by_cases hcpk : c = pk
    · simp [hcpk, hk]
    · simp [hc, hcpk]
  · simp [hc, hr.columns c hc, hr'.columns c hc]

end Literals

section Replay

variable {env : Env V} {d : TableDef} {pk : String} {w : World V} {k : V} {r : Tuple V}
  {s : ShadowRow V}

/-- An operation on a key has been carried out on the table, and nothing else has been touched. -/
structure Applied (d : TableDef) (pk : String) (op : V × Act String (Option V)) (w w' : World V) :
    Prop where
  table : keyed pk (w'.tables d.name) = applyOp (keyed pk (w.tables d.name)) op
  stored : StoredTable d pk (w'.tables d.name)
  others : ∀ name, name ≠ d.name → w'.tables name = w.tables name
  shadow : w'.shadow = w.shadow

/-- No constraint stands in the way of an operation on a key. -/
def Allowed (env : Env V) (d : TableDef) (pk : String) (op : V × Act String (Option V))
    (w : World V) : Prop :=
  ∀ t, StoredTable d pk t → keyed pk t = applyOp (keyed pk (w.tables d.name)) op →
    Admitted env d w t

theorem applied_of_effect (hfate : ∀ n, env.fate n = .executed) {stmt : Stmt} {t : Table V}
    {op : V × Act String (Option V)} (heffect : stmt.effect env w.tables = some (d.name, t))
    (hstored : StoredTable d pk t)
    (htable : keyed pk t = applyOp (keyed pk (w.tables d.name)) op)
    (hallowed : Allowed env d pk op w) :
    ∃ w', (execute env stmt).mapErr (DbError.flush d.name) w = (.ok (), w') ∧
      Applied d pk op w w' := by
  have hadmitted := hallowed t hstored htable
  refine ⟨{ w with
    clock := w.clock + 1
    tables := Function.update w.tables d.name t
    sent := w.sent ++ [stmt] }, ?_, ?_⟩
  · rw [Proc.mapErr_ok_iff]
    refine (Proc.bind_of_ok (send_of_executed (hfate _))).trans ?_
    unfold change
    dsimp only
    rw [heffect]
    dsimp only
    rw [if_pos hadmitted.2]
  · refine ⟨?_, ?_, fun name hname => Function.update_of_ne hname _ _, rfl⟩ <;>
      dsimp only <;> rw [Function.update_self]
    · exact htable
    · exact hstored

/-- The key that the replay reads, put between quotes as it is, denotes the key. -/
def KeyDenotes (env : Env V) (d : TableDef) (pk : String) (s : ShadowRow V) (k : V) : Prop :=
  ∃ str, ReorgStore.readText env d.columnNames s pk = some str ∧
    env.value d.name pk ("'" ++ str ++ "'") = some k

theorem replayDelete_applied (hd : env.schema.find d.name = some d)
    (hfate : ∀ n, env.fate n = .executed) (hw : StoredTable d pk (w.tables d.name))
    (hkey : KeyDenotes env d pk s k) (hallowed : Allowed env d pk (k, .delete) w) :
    ∃ w', ReorgStore.replayDelete env d.name pk d.columnNames s w = (.ok (), w') ∧
      Applied d pk (k, .delete) w w' := by
  obtain ⟨str, htext, hvalue⟩ := hkey
  unfold ReorgStore.replayDelete
  rw [htext]
  let t := deleteRows env d.name pk ["'" ++ str ++ "'"] (w.tables d.name)
  have hsub : t.Sublist (w.tables d.name) := List.filter_sublist
  have hstored : StoredTable d pk t :=
    ⟨fun r hr => hw.row r (hsub.subset hr), hw.unique.sublist hsub⟩
  have htable : keyed pk t = applyOp (keyed pk (w.tables d.name)) (k, .delete) := by
    refine (keyed_delete env d.name pk _ _).trans ?_
    simp [hvalue, replay]
  apply applied_of_effect hfate (t := t) _ hstored htable hallowed
  simp [Stmt.effect, hd, t]

theorem insertRow_of_allowed (hw : StoredTable d pk (w.tables d.name))
    (hr : StoredRow d r) (hk : r pk = some k) (habsent : keyed pk (w.tables d.name) k = none)
    (hallowed : Allowed env d pk (k, .insert r) w) :
    insertRow d.uniqueSets (w.tables d.name) r = w.tables d.name ++ [r] ∧
      StoredTable d pk (w.tables d.name ++ [r]) ∧
      keyed pk (w.tables d.name ++ [r]) =
        applyOp (keyed pk (w.tables d.name)) (k, .insert r) := by
  have hother : ∀ r' ∈ w.tables d.name, r' pk ≠ r pk := by
    intro r' hr' heq
    have hkeyed := keyed_of_mem hw.unique hr' (heq.trans hk)
    rw [habsent] at hkeyed
    cases hkeyed
  have hstored : StoredTable d pk (w.tables d.name ++ [r]) := by
    refine ⟨fun r' hr' => ?_, ?_⟩
    · rcases List.mem_append.mp hr' with hr' | hr'
      · exact hw.row r' hr'
      · rw [List.mem_singleton.mp hr']
        exact hr
    · refine List.pairwise_append.mpr ⟨hw.unique, List.pairwise_singleton _ _, ?_⟩
      intro r' hr' r'' hr''
      rw [List.mem_singleton.mp hr'']
      exact hother r' hr'
  have htable : keyed pk (w.tables d.name ++ [r]) =
      applyOp (keyed pk (w.tables d.name)) (k, .insert r) := by
    -- against no index but the key's the row is appended
    have hown : keyed pk (insertRow [[pk]] (w.tables d.name) r) =
        applyOp (keyed pk (w.tables d.name)) (k, .insert r) :=
      keyed_insertRow (List.mem_singleton_self _) hk fun s hs hc => by
        rw [conflicts, List.any_cons, List.any_nil, Bool.or_false] at hc
        exact ((agreeOn_singleton hk).mp hc).trans hk.symm |>.symm
    have happend : insertRow [[pk]] (w.tables d.name) r = w.tables d.name ++ [r] := by
      apply if_neg
      rw [List.any_eq_true]
      rintro ⟨s, hs, hc⟩
      rw [conflicts, List.any_cons, List.any_nil, Bool.or_false] at hc
      exact hother s hs (((agreeOn_singleton hk).mp hc).trans hk.symm)
    rw [← happend]
    exact hown
  refine ⟨if_neg ?_, hstored, htable⟩
  rw [List.any_eq_true]
  rintro ⟨s, hs, hc⟩
  have hpair := pairwise_of_admitted (hallowed _ hstored htable)
  have hno := (List.pairwise_append.mp hpair).2.2 s hs r (by simp)
  rw [conflicts_comm, hc] at hno
  cases hno

/-- Undo of a delete: a row that is still there stays, and otherwise nothing stands in the way of
the row. -/
theorem replayInsert_applied (hd : env.schema.find d.name = some d) (hpk : d.pk = some pk)
    (hfate : ∀ n, env.fate n = .executed) (hw : StoredTable d pk (w.tables d.name))
    (hr : StoredRow d r) (hk : r pk = some k) (hden : ∀ c ∈ d.columnNames, Denotes env d s r c)
    (hallowed : Allowed env d pk (k, .insert r) w) :
    ∃ w', ReorgStore.replayInsert env d.name d.columnNames s w = (.ok (), w') ∧
      Applied d pk (k, .insert r) w w' := by
  have htuple : tupleOf env d.name d.columnNames
      (d.columnNames.map (ReorgStore.replayLiteral env d.columnNames s)) = r := by
    funext c
    rw [tupleOf_replay]
    split_ifs with hc
    · exact hden c hc
    · exact (hr.columns c hc).symm
  let t := insertRow d.uniqueSets (w.tables d.name) r
  have heffect : (Stmt.insert d.name d.columnNames
      [d.columnNames.map (ReorgStore.replayLiteral env d.columnNames s)]).effect env w.tables =
      some (d.name, t) := by
    have hnn : ¬∃ c ∈ d.notNull, r c = none := by
      rintro ⟨c, hc, hnone⟩
      have hsome := hr.notNull c hc
      rw [hnone] at hsome
      cases hsome
    simp only [Stmt.effect, hd, Option.bind_eq_bind, Option.bind_some, List.map_cons, List.map_nil,
      htuple]
    rw [if_neg (by simpa using hnn)]
    rfl
  cases hkey : keyed pk (w.tables d.name) k with
  | some r' =>
    obtain ⟨hmem, hk'⟩ := keyed_eq_some hkey
    have ht : t = w.tables d.name :=
      if_pos (List.any_eq_true.mpr ⟨r', hmem, List.any_eq_true.mpr
        ⟨[pk], TableDef.pk_mem_uniqueSets hpk, (agreeOn_singleton hk).mpr hk'⟩⟩)
    rw [ht] at heffect
    refine applied_of_effect hfate heffect hw ?_ hallowed
    simp [applyOp, hkey, Act.run]
  | none =>
    obtain ⟨ht, hstored, htable⟩ := insertRow_of_allowed hw hr hk hkey hallowed
    exact applied_of_effect hfate (heffect.trans (by rw [← ht])) hstored htable hallowed

/-- The row of a key is exchanged for another row of the key. -/
def putRow (pk : String) (k : V) (r : Tuple V) (t : Table V) : Table V :=
  t.map fun r' => if r' pk = some k then r else r'

theorem putRow_pk (hk : r pk = some k) (r' : Tuple V) :
    (if r' pk = some k then r else r') pk = r' pk := by
  split_ifs with hk'
  · rw [hk, hk']
  · rfl

theorem storedTable_putRow {t : Table V} (ht : StoredTable d pk t) (hr : StoredRow d r)
    (hk : r pk = some k) : StoredTable d pk (putRow pk k r t) := by
  refine ⟨fun r' hr' => ?_, ?_⟩
  · obtain ⟨r₀, hr₀, rfl⟩ := List.mem_map.mp hr'
    split_ifs
    · exact hr
    · exact ht.row r₀ hr₀
  · unfold putRow
    rw [List.pairwise_map]
    refine ht.unique.imp fun hne => ?_
    rw [putRow_pk hk, putRow_pk hk]
    exact hne

theorem keyed_putRow (hk : r pk = some k) (t : Table V) :
    keyed pk (putRow pk k r t) = applyOp (keyed pk t) (k, .update fun c => some (r c)) := by
  funext k'
  have hfind : keyed pk (putRow pk k r t) k' =
      (keyed pk t k').map fun r' => if r' pk = some k then r else r' := by
    unfold keyed putRow
    rw [List.find?_map]
    congr 2
    funext r'
    simp only [Function.comp_apply, putRow_pk hk]
  rw [hfind]
  unfold applyOp
  dsimp only
  by_cases hk' : k' = k
  · subst hk'
    rw [Function.update_self]
    cases hx : keyed pk t k' with
    | none => rfl
    | some r' =>
      rw [Option.map_some, if_pos (keyed_eq_some hx).2]
      rfl
  · rw [Function.update_of_ne hk']
    cases hx : keyed pk t k' with
    | none => rfl
    | some r' =>
      have hne : ¬r' pk = some k := by
        rw [(keyed_eq_some hx).2]
        exact fun h => hk' (Option.some.inj h)
      rw [Option.map_some, if_neg hne]

theorem updateRows_replay {t : Table V} (ht : StoredTable d pk t) (hr : StoredRow d r)
    (hk : r pk = some k) (hden : ∀ c ∈ d.columnNames, c ≠ pk → Denotes env d s r c) {lit : String}
    (hvalue : env.value d.name pk lit = some k) :
    (∀ r' ∈ t, matchesKey env d.name pk lit r' = true →
        setColumns env d.name (ReorgStore.replaySets env pk d.columnNames s) r' = r) ∧
      updateRows env d.name (ReorgStore.replaySets env pk d.columnNames s) pk lit t =
        putRow pk k r t := by
  have hmatch (r' : Tuple V) : matchesKey env d.name pk lit r' = decide (r' pk = some k) :=
    matchesKey_of_some hvalue r'
  have hset (r' : Tuple V) (hr' : r' ∈ t) (hk' : r' pk = some k) :
      setColumns env d.name (ReorgStore.replaySets env pk d.columnNames s) r' = r := by
    rw [← assign_replay hr (ht.row r' hr') (hk'.trans hk.symm)]
    exact funext (setColumns_replaySets hden r')
  constructor
  · intro r' hr' hm
    rw [hmatch, decide_eq_true_eq] at hm
    exact hset r' hr' hm
  · apply List.map_congr_left
    intro r' hr'
    rw [hmatch]
    by_cases hk' : r' pk = some k
    · simp [hk', hset r' hr' hk']
    · simp [hk']

theorem replayUpdate_applied (hd : env.schema.find d.name = some d)
    (hfate : ∀ n, env.fate n = .executed) (hw : StoredTable d pk (w.tables d.name))
    (hr : StoredRow d r) (hk : r pk = some k)
    (hden : ∀ c ∈ d.columnNames, c ≠ pk → Denotes env d s r c) {str : String}
    (htext : ReorgStore.readText env d.columnNames s pk = some str)
    (hvalue : (∃ c ∈ d.columnNames, c ≠ pk) → env.value d.name pk ("'" ++ str ++ "'") = some k)
    (hallowed : Allowed env d pk (k, .update fun c => some (r c)) w) :
    ∃ w', ReorgStore.replayUpdate env d.name pk d.columnNames s w = (.ok (), w') ∧
      Applied d pk (k, .update fun c => some (r c)) w w' := by
  have hstored := storedTable_putRow hw hr hk
  have htable := keyed_putRow hk (w.tables d.name)
  unfold ReorgStore.replayUpdate
  rw [htext]
  dsimp only
  split_ifs with hempty
  · -- the row is its key, so the row before is the row that is there
    rw [replaySets_isEmpty_iff] at hempty
    have hsame : putRow pk k r (w.tables d.name) = w.tables d.name := by
      have hid (r' : Tuple V) (hr' : r' ∈ w.tables d.name) :
          (if r' pk = some k then r else r') = r' := by
        split_ifs with hk'
        · funext c
          by_cases hc : c ∈ d.columnNames
          · rw [hempty c hc, hk, hk']
          · rw [hr.columns c hc, (hw.row r' hr').columns c hc]
        · rfl
      exact (List.map_congr_left hid).trans (List.map_id' _)
    rw [hsame] at htable
    exact ⟨w, rfl, htable, hw, fun _ _ => rfl, rfl⟩
  · rw [replaySets_isEmpty_iff] at hempty
    push Not at hempty
    obtain ⟨hset, hrows⟩ := updateRows_replay hw hr hk hden (hvalue hempty)
    apply applied_of_effect hfate (t := putRow pk k r (w.tables d.name)) _ hstored htable hallowed
    have hnn : ¬((w.tables d.name).filter (matchesKey env d.name pk ("'" ++ str ++ "'"))).any
        (fun r' => d.notNull.any fun c => (setColumns env d.name
          (ReorgStore.replaySets env pk d.columnNames s) r' c).isNone) = true := by
      rw [List.any_eq_true]
      rintro ⟨r', hr', hany⟩
      obtain ⟨hmem, hm⟩ := List.mem_filter.mp hr'
      obtain ⟨c, hc, hnone⟩ := List.any_eq_true.mp hany
      rw [hset r' hmem hm] at hnone
      have hsome := hr.notNull c hc
      rw [Option.isNone_iff_eq_none.mp hnone] at hsome
      cases hsome
    simp only [Stmt.effect, hd, Option.bind_eq_bind, Option.bind_some, hrows]
    rw [(hallowed _ hstored htable).1, Bool.or_false, if_neg hnn]

end Replay

end ForgeIndex
