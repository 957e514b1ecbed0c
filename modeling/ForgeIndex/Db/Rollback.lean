import ForgeIndex.Db.History

/-!
# Rollback of a recorded history

The shadow rows of one block come back in any order, so `rollback_from_block` replays an undo log
whose order inside a block is arbitrary.  What it needs beyond that is that no mixture of the rows
of a block runs into a constraint of the table.
-/

namespace ForgeIndex

open KeyedOps UndoLog

variable {V : Type} [DecidableEq V]

/-- Every table whose rows are, key by key, rows of one moment or another of one block keeps the
constraints. -/
def MixesAdmitted (env : Env V) (d : TableDef) (pk : String) (w₀ w : World V)
    (cs : List (RowChange V)) : Prop :=
  ∀ c ∈ cs, ∀ t, TextTable env d pk t →
    (∀ k, HeldIn (keyed pk (w₀.tables d.name)) cs c.block k (keyed pk t k)) → Admitted env d w t

section Rollback

variable {env : Env V} {d : TableDef} {pk : String} {w w₁ : World V} {cs : List (RowChange V)}
  {b : UInt64}

theorem exists_map_of_perm {α β : Type} {f : α → β} {l : List α} {l' : List β}
    (h : l'.Perm (l.map f)) : ∃ l'' : List α, l''.Perm l ∧ l' = l''.map f := by
  induction l generalizing l' with
  | nil => exact ⟨[], List.Perm.refl _, h.eq_nil⟩
  | cons a l ih =>
    obtain ⟨p, q, rfl⟩ := List.append_of_mem (h.mem_iff.mpr (by simp : f a ∈ (a :: l).map f))
    have hrest : (p ++ q).Perm (l.map f) :=
      (List.perm_cons (f a)).mp (List.perm_middle.symm.trans h)
    obtain ⟨m, hm, hsplit⟩ := ih hrest
    obtain ⟨m₁, m₂, rfl, rfl, rfl⟩ := List.map_eq_append_iff.mp hsplit.symm
    exact ⟨m₁ ++ a :: m₂, List.perm_middle.trans (hm.cons a), by simp⟩

instance : Std.Total fun s s' : ShadowRow V => s'.blockNumber ≤ s.blockNumber := ⟨fun a b => by
  simp only [Int64.le_iff_toInt_le]
  omega⟩

instance : IsTrans (ShadowRow V) fun s s' => s'.blockNumber ≤ s.blockNumber := ⟨fun a b c h h' => by
  simp only [Int64.le_iff_toInt_le] at *
  omega⟩

omit [DecidableEq V] in
theorem toInt_shadowOf {c : RowChange V} (h : c.block < 2 ^ 63) :
    (shadowOf c).blockNumber.toInt = c.block := by
  have hnat : (UInt64.ofNat c.block).toNat = c.block := by
    rw [UInt64.toNat_ofNat']
    omega
  have hint := toInt_toInt64 (n := UInt64.ofNat c.block) (by omega)
  rw [hnat] at hint
  exact hint

omit [DecidableEq V] in
/-- The query returns the shadow rows of the blocks from `b` on, the last blocks first. -/
theorem selectRows_shadow (hb : b.toNat < 2 ^ 63) {low rows : List (ShadowRow V)}
    (hlow : ∀ s ∈ low, s.blockNumber < b.toInt64) (hge : ∀ c ∈ cs, b.toNat ≤ c.block)
    (hlt : ∀ c ∈ cs, c.block < 2 ^ 63) (hrows : rows.Perm (low ++ cs.map shadowOf)) :
    ∃ l : List (RowChange V), l.Perm cs ∧ (l.Pairwise fun c c' => c'.block ≤ c.block) ∧
      ReorgStore.selectRows b.toInt64 rows = l.map shadowOf := by
  have hbint := toInt_toInt64 hb
  have hfilter : (low ++ cs.map shadowOf).filter
      (fun s => decide (b.toInt64 ≤ s.blockNumber)) = cs.map shadowOf := by
    have hnone : low.filter (fun s => decide (b.toInt64 ≤ s.blockNumber)) = [] := by
      rw [List.filter_eq_nil_iff]
      intro s hs
      have := hlow s hs
      rw [decide_eq_true_eq, Int64.le_iff_toInt_le]
      rw [Int64.lt_iff_toInt_lt] at this
      omega
    have hall : (cs.map shadowOf).filter (fun s => decide (b.toInt64 ≤ s.blockNumber)) =
        cs.map shadowOf := by
      rw [List.filter_eq_self]
      intro s hs
      obtain ⟨c, hc, rfl⟩ := List.mem_map.mp hs
      have := hge c hc
      rw [decide_eq_true_eq, Int64.le_iff_toInt_le, toInt_shadowOf (hlt c hc)]
      omega
    rw [List.filter_append, hnone, hall, List.nil_append]
  have hperm : (ReorgStore.selectRows b.toInt64 rows).Perm (cs.map shadowOf) := by
    refine (List.perm_insertionSort _ _).trans ?_
    rw [← hfilter]
    exact hrows.filter _
  obtain ⟨l, hl, hselect⟩ := exists_map_of_perm hperm
  refine ⟨l, hl, ?_, hselect⟩
  have hsorted : (ReorgStore.selectRows b.toInt64 rows).Pairwise
      fun s s' => s'.blockNumber ≤ s.blockNumber := List.pairwise_insertionSort _ _
  rw [hselect, List.pairwise_map] at hsorted
  apply hsorted.imp_of_mem
  intro c c' hc hc' hle
  rw [Int64.le_iff_toInt_le, toInt_shadowOf (hlt c (hl.mem_iff.mp hc)),
    toInt_shadowOf (hlt c' (hl.mem_iff.mp hc'))] at hle
  omega

/-- The replay has undone the changes of a list. -/
structure Replayed (env : Env V) (d : TableDef) (pk : String) (w : World V)
    (done : List (RowChange V)) (w' : World V) : Prop where
  table : keyed pk (w'.tables d.name) = undoAll (keyed pk (w.tables d.name)) done
  stored : TextTable env d pk (w'.tables d.name)
  others : ∀ name, name ≠ d.name → w'.tables name = w.tables name
  shadow : w'.shadow = w.shadow

theorem Admitted.of_others {w w' : World V} {t : Table V} (h : Admitted env d w t)
    (hothers : ∀ name, name ≠ d.name → w'.tables name = w.tables name) : Admitted env d w' t := by
  have hsame : Function.update w'.tables d.name t = Function.update w.tables d.name t := by
    funext name
    by_cases hname : name = d.name
    · rw [hname, Function.update_self, Function.update_self]
    · rw [Function.update_of_ne hname, Function.update_of_ne hname, hothers name hname]
  exact ⟨h.1, by rw [hsame]; exact h.2⟩

theorem replayAll (hd : env.schema.find d.name = some d) (hpk : d.pk = some pk)
    (hfate : ∀ n, env.fate n = .executed) {l : List (RowChange V)}
    (himage : ∀ c ∈ l, ∃ r, c.image = some r ∧ TextRow env d pk r ∧ r pk = some c.key)
    (hadm : ∀ l₁ c l₂, l = l₁ ++ c :: l₂ → ∀ t, TextTable env d pk t →
      keyed pk t = undoAll (keyed pk (w.tables d.name)) (l₁ ++ [c]) → Admitted env d w t) :
    Proc.Triple (Replayed env d pk w [])
      (Proc.forEach (ReorgStore.replayRow env d.name pk d.columnNames) (l.map shadowOf))
      (fun _ => Replayed env d pk w l) fun _ => False := by
  rw [Proc.forEach_map]
  apply Proc.Triple.forEach (I := Replayed env d pk w)
  intro pre c post hl w' hw'
  obtain ⟨r, hr, hrow, hkey⟩ := himage c (by simp [hl])
  have hnext : undoAll (keyed pk (w.tables d.name)) (pre ++ [c]) =
      applyOp (keyed pk (w'.tables d.name)) (c.key, c.undo) := by
    rw [undoAll_append, ← hw'.table]
    rfl
  obtain ⟨w'', hrun, hundone⟩ := replayRow_undone hd hpk hfate hw'.stored hr hrow hkey
    fun t ht htable => (hadm pre c post hl t ht (htable.trans hnext.symm)).of_others hw'.others
  rw [hrun]
  refine ⟨hundone.table.trans hnext.symm, hundone.stored, fun name hname => ?_,
    hundone.shadow.trans hw'.shadow⟩
  rw [hundone.others name hname, hw'.others name hname]

/-- Rollback of a history whose blocks are order-free and whose mixtures keep the constraints. -/
theorem rollbackFromBlock_undoes (hd : env.schema.find d.name = some d) (hpk : d.pk = some pk)
    (hfate : ∀ n, env.fate n = .executed) (hb : b.toNat < 2 ^ 63)
    (hstored : TextTable env d pk (w₁.tables d.name))
    (hlow : ∀ s ∈ w₁.shadow d.name, s.blockNumber < b.toInt64)
    (hist : History env d pk w₁ cs w) (hge : ∀ c ∈ cs, b.toNat ≤ c.block)
    (hsorted : cs.Pairwise fun c c' => c.block ≤ c'.block)
    (hfree : BlocksFree (keyed pk (w₁.tables d.name)) cs)
    (hmixes : MixesAdmitted env d pk w₁ w cs) :
    ∃ n w', ReorgStore.rollbackFromBlock env d.name b pk d.columnNames w = (.ok n, w') ∧
      (w'.tables d.name).Perm (w₁.tables d.name) ∧ w'.shadow d.name = w₁.shadow d.name := by
  have hleft := hist.left hd hstored
  let rows := ReorgStore.selectRows b.toInt64 (env.scan (w.clock + 1) (w.shadow d.name))
  have hperm : (env.scan (w.clock + 1) (w.shadow d.name)).Perm
      (w₁.shadow d.name ++ cs.map shadowOf) := by
    rw [← hleft.shadow]
    exact env.scan_perm _ _
  obtain ⟨l, hl, hdesc, hselect⟩ := selectRows_shadow hb hlow hge hleft.block hperm
  obtain ⟨hundo, hheld⟩ := undoAll_blocks hleft.follows hfree hsorted hl hdesc
  have hloop := replayAll (w := w) hd hpk hfate (l := l)
    (fun c hc => hleft.image c (hl.mem_iff.mp hc)) fun l₁ c l₂ hsplit t ht htable => by
      refine hmixes c (hl.mem_iff.mp (by simp [hsplit])) t ht fun k => ?_
      rw [htable, hleft.table]
      exact hheld l₁ c l₂ hsplit k
  have hstart : Replayed env d pk w [] { w with clock := w.clock + 1 } :=
    ⟨rfl, hleft.stored, fun _ _ => rfl, rfl⟩
  have hrun := hloop _ hstart
  rcases hres : Proc.forEach (ReorgStore.replayRow env d.name pk d.columnNames) (l.map shadowOf)
      { w with clock := w.clock + 1 } with ⟨_ | e | _, w₂⟩ <;> rw [hres] at hrun
  · refine ⟨(l.map shadowOf).length, { w₂ with
      clock := w₂.clock + 1
      shadow := Function.update w₂.shadow d.name ((w₂.shadow d.name).filter
        fun s => !decide (b.toInt64 ≤ s.blockNumber)) }, ?_, ?_, ?_⟩
    · exact ReorgStore.rollbackFromBlock_of_replay hd hfate hselect hres
    · refine hrun.stored.toStored.perm_of_keyed_eq hpk hstored.toStored ?_
      rw [hrun.table, hleft.table, hundo]
    · dsimp only
      rw [Function.update_self, hrun.shadow, hleft.shadow, List.filter_append]
      have hkeep : (w₁.shadow d.name).filter (fun s => !decide (b.toInt64 ≤ s.blockNumber)) =
          w₁.shadow d.name := by
        rw [List.filter_eq_self]
        intro s hs
        have := hlow s hs
        simpa [Int64.not_le] using this
      have hdrop : (cs.map shadowOf).filter (fun s => !decide (b.toInt64 ≤ s.blockNumber)) = [] := by
        rw [List.filter_eq_nil_iff]
        intro s hs
        obtain ⟨c, hc, rfl⟩ := List.mem_map.mp hs
        have hbint := toInt_toInt64 hb
        have := hge c hc
        simp only [Bool.not_eq_true', decide_eq_false_iff_not, not_not, Int64.le_iff_toInt_le,
          toInt_shadowOf (hleft.block c hc)]
        omega
      rw [hkeep, hdrop, List.append_nil]
  · exact hrun.elim
  · exact hrun.elim

theorem History.shadow_lt (hd : env.schema.find d.name = some d) (hb : b.toNat < 2 ^ 63)
    {w₀ : World V} {pre : List (RowChange V)} (hstored : TextTable env d pk (w₀.tables d.name))
    (hempty : w₀.shadow d.name = []) (hist : History env d pk w₀ pre w₁)
    (hpre : ∀ c ∈ pre, c.block < b.toNat) :
    w₁.shadow d.name = pre.map shadowOf ∧ ∀ s ∈ w₁.shadow d.name, s.blockNumber < b.toInt64 := by
  have hleft := hist.left hd hstored
  have hshadow := hleft.shadow
  rw [hempty, List.nil_append] at hshadow
  refine ⟨hshadow, fun s hs => ?_⟩
  rw [hshadow] at hs
  obtain ⟨c, hc, rfl⟩ := List.mem_map.mp hs
  have hlt := hpre c hc
  rw [Int64.lt_iff_toInt_lt, toInt_shadowOf (hleft.block c hc), toInt_toInt64 hb]
  omega

/-- Rollback inverts a recorded history with one operation at most on each key in each block, when
no mixture of rows before and after a block breaks a constraint. -/
theorem rollbackFromBlock_inverts_once (hd : env.schema.find d.name = some d)
    (hpk : d.pk = some pk) (hfate : ∀ n, env.fate n = .executed) (hb : b.toNat < 2 ^ 63)
    {w₀ : World V} {pre : List (RowChange V)} (hstored : TextTable env d pk (w₀.tables d.name))
    (hempty : w₀.shadow d.name = []) (hbefore : History env d pk w₀ pre w₁)
    (hpre : ∀ c ∈ pre, c.block < b.toNat) (hafter : History env d pk w₁ cs w)
    (hge : ∀ c ∈ cs, b.toNat ≤ c.block) (hsorted : cs.Pairwise fun c c' => c.block ≤ c'.block)
    (honce : cs.Pairwise fun c c' => c.block = c'.block → c.key ≠ c'.key)
    (hmixes : MixesAdmitted env d pk w₁ w cs) :
    ∃ n w', ReorgStore.rollbackFromBlock env d.name b pk d.columnNames w = (.ok n, w') ∧
      (w'.tables d.name).Perm (w₁.tables d.name) ∧ w'.shadow d.name = pre.map shadowOf := by
  obtain ⟨hshadow, hlow⟩ := hbefore.shadow_lt hd hb hstored hempty hpre
  have hstored₁ := (hbefore.left hd hstored).stored
  have hfree := blocksFree_of_once (hafter.left hd hstored₁).follows hsorted honce
  rw [← hshadow]
  exact rollbackFromBlock_undoes hd hpk hfate hb hstored₁ hlow hafter hge hsorted hfree hmixes

/-- Rollback inverts a recorded history with any number of operations on a key in a block, when
each block is order-free and no mixture of rows of a block breaks a constraint. -/
theorem rollbackFromBlock_inverts_orderFree (hd : env.schema.find d.name = some d)
    (hpk : d.pk = some pk) (hfate : ∀ n, env.fate n = .executed) (hb : b.toNat < 2 ^ 63)
    {w₀ : World V} {pre : List (RowChange V)} (hstored : TextTable env d pk (w₀.tables d.name))
    (hempty : w₀.shadow d.name = []) (hbefore : History env d pk w₀ pre w₁)
    (hpre : ∀ c ∈ pre, c.block < b.toNat) (hafter : History env d pk w₁ cs w)
    (hge : ∀ c ∈ cs, b.toNat ≤ c.block) (hsorted : cs.Pairwise fun c c' => c.block ≤ c'.block)
    (hfree : BlocksFree (keyed pk (w₁.tables d.name)) cs)
    (hmixes : MixesAdmitted env d pk w₁ w cs) :
    ∃ n w', ReorgStore.rollbackFromBlock env d.name b pk d.columnNames w = (.ok n, w') ∧
      (w'.tables d.name).Perm (w₁.tables d.name) ∧ w'.shadow d.name = pre.map shadowOf := by
  obtain ⟨hshadow, hlow⟩ := hbefore.shadow_lt hd hb hstored hempty hpre
  have hstored₁ := (hbefore.left hd hstored).stored
  rw [← hshadow]
  exact rollbackFromBlock_undoes hd hpk hfate hb hstored₁ hlow hafter hge hsorted hfree hmixes

/-- Without a further unique index, and without a foreign key from or to the table, there is no
constraint to break. -/
theorem mixesAdmitted_of_plain (hunique : d.uniqueSets = [[pk]])
    (hrefs : ∀ d' ∈ env.schema.tables, ∀ col ∈ d'.columns, ∀ ref, col.references = some ref →
      d'.name ≠ d.name ∧ ref.1 ≠ d.name)
    (hw : refsHold env.schema w.tables = true) (hpk : d.pk = some pk) :
    MixesAdmitted env d pk w₁ w cs := by
  intro c _ t ht _
  constructor
  · unfold duplicates
    rw [Bool.not_eq_false', decide_eq_true_eq, hunique]
    refine ht.unique.imp_of_mem fun {r s} hr _ hne => ?_
    obtain ⟨k, hk⟩ := Option.isSome_iff_exists.mp
      ((ht.row r hr).notNull pk (TableDef.pk_mem_notNull hpk))
    rw [conflicts, List.any_cons, List.any_nil, Bool.or_false, ← Bool.not_eq_true,
      agreeOn_singleton hk]
    exact fun hs => hne (hk.trans hs.symm)
  · unfold refsHold at hw ⊢
    rw [List.all_eq_true] at hw ⊢
    intro d' hd'
    have hall := hw d' hd'
    rw [List.all_eq_true] at hall ⊢
    intro col hcol
    have href := hall col hcol
    cases hr : col.references with
    | none => rfl
    | some ref =>
      obtain ⟨hown, hother⟩ := hrefs d' hd' col hcol ref hr
      rw [hr] at href
      dsimp only at href ⊢
      rw [Function.update_of_ne hown, Function.update_of_ne hother]
      exact href

end Rollback

section Accounts

/-- The world after an operation and its `record_flush`. -/
def recordedWorld (env : Env V) (d : TableDef) (w : World V) (row : Row) (op : Operation)
    (blockNumber : UInt64) (t : Table V) : World V :=
  { (ReorgStore.recordFlush env d.name [row] op blockNumber d.columnNames w).2 with
    tables := Function.update w.tables d.name t }

theorem recordedStep {env : Env V} {d : TableDef} {pk : String} {w : World V} {c : RowChange V}
    {row : Row} {blockNumber : UInt64} {t : Table V}
    (hfinds : keyed pk (w.tables d.name) c.key = c.before)
    (heffective : c.before.isSome ∨ c.after.isSome)
    (hleaves : keyed pk t = Function.update (keyed pk (w.tables d.name)) c.key c.after)
    (hstored : TextTable env d pk t) (hblock : c.block = blockNumber.toNat)
    (hshows : ∀ r, c.image = some r → ∀ col ∈ d.columnNames,
      env.value d.name col (row.literal col) = r col)
    (hok : (ReorgStore.recordFlush env d.name [row] c.operation blockNumber d.columnNames w).1 =
      .ok ()) :
    RecordedStep env d pk c w (recordedWorld env d w row c.operation blockNumber t) where
  finds := hfinds
  effective := heffective
  leaves := by
    dsimp only [recordedWorld]
    rw [Function.update_self]
    exact hleaves
  stored := by
    dsimp only [recordedWorld]
    rw [Function.update_self]
    exact hstored
  recorded := ⟨row, blockNumber, w, _, hblock, hshows, rfl, Proc.eq_ok_of_fst hok, rfl⟩

theorem unquote_doubleQuotes (v : String) : unquote ("'" ++ Row.doubleQuotes v ++ "'") = v := by
  have hundouble (l : List Char) :
      unquote.undouble (l.flatMap fun c => if c = '\'' then ['\'', '\''] else [c]) = l := by
    induction l with
    | nil => rfl
    | cons c l ih =>
      rw [List.flatMap_cons]
      split_ifs with hc
      · rw [hc]
        exact congrArg ('\'' :: ·) ih
      · have hstep (m : List Char) : unquote.undouble (c :: m) = c :: unquote.undouble m := by
          rw [unquote.undouble.eq_def]
          split
          · rename_i heq
            cases heq
            exact absurd rfl hc
          · rename_i heq
            cases heq
            rfl
          · rename_i heq
            cases heq
        exact (hstep _).trans (congrArg (c :: ·) ih)
  have hlist : ("'" ++ Row.doubleQuotes v ++ "'").toList =
      '\'' :: ((v.toList.flatMap fun c => if c = '\'' then ['\'', '\''] else [c]) ++ ['\'']) := by
    simp [Row.doubleQuotes]
  unfold unquote
  rw [hlist]
  change String.ofList (unquote.undouble (List.dropLast _)) = v
  rw [List.dropLast_concat, hundouble, String.ofList_toList]

theorem quoted_ne_null (v : String) : "'" ++ v ++ "'" ≠ "NULL" := by
  intro h
  have hlist := congrArg String.toList h
  simp at hlist

theorem isText_plainEnv (schema : Schema) (table col v : String) :
    IsText (plainEnv schema) table col v := by
  refine ⟨v, rfl, ?_⟩
  simp only [plainEnv, if_neg (quoted_ne_null _), unquote_doubleQuotes]

def accountTuple (id balance : String) : Tuple String := fun c =>
  if c = "id" then some id else if c = "balance" then some balance else none

/-- `accounts` with some indexes. -/
def indexedAccounts (indexes : List IndexDef) : TableDef := { accountsTable with indexes }

variable {indexes : List IndexDef}

theorem textRow_account {id : String} (hid : '\'' ∉ id.toList) (balance : String) :
    TextRow (plainEnv ⟨[indexedAccounts indexes]⟩) (indexedAccounts indexes) "id"
      (accountTuple id balance) where
  columns c hc := by
    have hne : ¬c = "id" ∧ ¬c = "balance" := by
      simpa [indexedAccounts, accountsTable, TableDef.columnNames] using hc
    simp [accountTuple, hne]
  notNull c hc := by
    have hmem : c ∈ ["id", "balance"] := hc
    rcases List.mem_cons.mp hmem with rfl | hmem
    · rfl
    · rw [List.mem_singleton.mp hmem]
      rfl
  text c v _ := isText_plainEnv _ _ c v
  quoteFree k hk s hs := by
    cases hk
    cases hs
    exact hid

/-- The accounts of a list of identifiers and balances. -/
def accounts (ps : List (String × String)) : Table String :=
  ps.map fun p => accountTuple p.1 p.2

theorem textTable_accounts {ps : List (String × String)} (hquote : ∀ p ∈ ps, '\'' ∉ p.1.toList)
    (hnodup : (ps.map Prod.fst).Nodup) :
    TextTable (plainEnv ⟨[indexedAccounts indexes]⟩) (indexedAccounts indexes) "id"
      (accounts ps) where
  row r hr := by
    obtain ⟨p, hp, rfl⟩ := List.mem_map.mp hr
    exact textRow_account (hquote p hp) p.2
  unique := by
    unfold accounts
    rw [List.pairwise_map]
    rw [List.Nodup, List.pairwise_map] at hnodup
    exact hnodup.imp fun hne h => hne (Option.some.inj h)

theorem keyed_accounts (ps : List (String × String)) (k : String) :
    keyed "id" (accounts ps) k =
      (ps.find? fun p => p.1 = k).map fun p => accountTuple p.1 p.2 := by
  unfold keyed accounts
  rw [List.find?_map]
  congr 2
  funext p
  simp [accountTuple]

theorem value_accountRow (schema : Schema) (table id balance : String) :
    ∀ col ∈ accountsTable.columnNames,
      (plainEnv schema).value table col ((accountRow id balance).literal col) =
        accountTuple id balance col := by
  intro col hcol
  have hquoted (col v : String) :
      (plainEnv schema).value table col ("'" ++ Row.doubleQuotes v ++ "'") = some v := by
    obtain ⟨s, hs, hv⟩ := isText_plainEnv schema table col v
    cases hs
    exact hv
  rcases List.mem_cons.mp hcol with rfl | hcol
  · exact hquoted "id" id
  · rw [List.mem_singleton.mp hcol]
    exact hquoted "balance" balance

/-- A process on a database with some accounts. -/
def accountsWorld (ps : List (String × String)) : World String :=
  { World.fresh String with tables := fun _ => accounts ps }

/-- The change of one account, by balances. -/
def accountChange (block : ℕ) (id : String) (before after : Option String) : RowChange String :=
  ⟨block, id, before.map (accountTuple id), after.map (accountTuple id)⟩

/-- The world after a change of an account has been recorded; `ps` are the accounts then. -/
def accountsAfter (indexes : List IndexDef) (w : World String) (c : RowChange String)
    (shown : String) (ps : List (String × String)) : World String :=
  recordedWorld (plainEnv ⟨[indexedAccounts indexes]⟩) (indexedAccounts indexes) w
    (accountRow c.key shown) c.operation (UInt64.ofNat c.block) (accounts ps)

theorem accountsAfter_step {w : World String} (ps : List (String × String))
    {ps' : List (String × String)} {block : ℕ} {id shown : String} {before after : Option String}
    (hw : w.tables "accounts" = accounts ps)
    (hfinds : (ps.find? fun p => p.1 = id) = before.map fun v => (id, v))
    (hleaves : ∀ k, (ps'.find? fun p => p.1 = k) =
      if k = id then after.map fun v => (id, v) else ps.find? fun p => p.1 = k)
    (hquote : ∀ p ∈ ps', '\'' ∉ p.1.toList) (hnodup : (ps'.map Prod.fst).Nodup)
    (hblock : block < 2 ^ 63) (hshown : before.or after = some shown)
    (hok : (ReorgStore.recordFlush (plainEnv ⟨[indexedAccounts indexes]⟩) "accounts"
      [accountRow id shown] (accountChange block id before after).operation (UInt64.ofNat block)
      accountsTable.columnNames w).1 = .ok ()) :
    RecordedStep (plainEnv ⟨[indexedAccounts indexes]⟩) (indexedAccounts indexes) "id"
      (accountChange block id before after) w
      (accountsAfter indexes w (accountChange block id before after) shown ps') := by
  refine recordedStep ?_ ?_ ?_ (textTable_accounts hquote hnodup) ?_ ?_ hok
  · change keyed "id" (w.tables "accounts") id = before.map (accountTuple id)
    rw [hw, keyed_accounts, hfinds, Option.map_map]
    rfl
  · cases before <;> cases after <;> simp_all [accountChange]
  · change _ = Function.update (keyed "id" (w.tables "accounts")) id (after.map (accountTuple id))
    funext k
    rw [hw, keyed_accounts, hleaves]
    by_cases hk : k = id
    · subst hk
      rw [if_pos rfl, Function.update_self, Option.map_map]
      rfl
    · rw [if_neg hk, Function.update_of_ne hk, keyed_accounts]
  · change block = (UInt64.ofNat block).toNat
    rw [UInt64.toNat_ofNat']
    omega
  · intro r hr col hcol
    have himage : (accountChange block id before after).image = some (accountTuple id shown) := by
      unfold RowChange.image accountChange
      cases before <;> cases after <;> simp_all
    rw [himage] at hr
    cases hr
    exact value_accountRow _ _ id shown col hcol

/-- Both accounts of a block are put back. -/
theorem rollbackFromBlock_inverts_once_accounts :
    let env := plainEnv ⟨[indexedAccounts []]⟩
    let c₁ := accountChange 10 "a" (some "5") (some "6")
    let c₂ := accountChange 10 "b" none (some "1")
    let w₁ := accountsAfter [] (accountsWorld [("a", "5")]) c₁ "5" [("a", "6")]
    let w₂ := accountsAfter [] w₁ c₂ "1" [("a", "6"), ("b", "1")]
    ∃ n w', ReorgStore.rollbackFromBlock env "accounts" 10 "id" accountsTable.columnNames w₂ =
        (.ok n, w') ∧
      (w'.tables "accounts").Perm (accounts [("a", "5")]) ∧ w'.shadow "accounts" = [] := by
  intro env c₁ c₂ w₁ w₂
  have h₁ : RecordedStep env (indexedAccounts []) "id" c₁ (accountsWorld [("a", "5")]) w₁ :=
    accountsAfter_step [("a", "5")] rfl rfl (fun k => by simp; grind) (by decide)
      (by decide) (by decide) rfl rfl
  have h₂ : RecordedStep env (indexedAccounts []) "id" c₂ w₁ w₂ :=
    accountsAfter_step [("a", "6")] rfl rfl (fun k => by simp; grind) (by decide)
      (by decide) (by decide) rfl rfl
  exact rollbackFromBlock_inverts_once (d := indexedAccounts []) (b := 10) rfl rfl (fun _ => rfl)
    (by decide) (textTable_accounts (by decide) (by decide)) rfl (History.start _)
    (fun _ hc => by simp at hc) (((History.start _).op h₁).op h₂) (by decide) (by decide)
    (by decide) (mixesAdmitted_of_plain rfl (by decide) (by decide) rfl)

/-- A unique index on the balance. -/
def balanceIndex : IndexDef := { columns := ["balance"], unique := true }

/-- Block 10 deletes account `a`, and account `b` takes over its balance. -/
def takenOver : World String :=
  accountsAfter [balanceIndex]
    (accountsAfter [balanceIndex] (accountsWorld [("a", "5")]) (accountChange 10 "a" (some "5") none)
      "5" [])
    (accountChange 10 "b" none (some "5")) "5" [("b", "5")]

theorem history_takenOver :
    History (plainEnv ⟨[indexedAccounts [balanceIndex]]⟩) (indexedAccounts [balanceIndex]) "id"
      (accountsWorld [("a", "5")])
      ([] ++ [accountChange 10 "a" (some "5") none] ++ [accountChange 10 "b" none (some "5")])
      takenOver := by
  let c₁ := accountChange 10 "a" (some "5") none
  let w₁ := accountsAfter [balanceIndex] (accountsWorld [("a", "5")]) c₁ "5" []
  have h₁ : RecordedStep (plainEnv ⟨[indexedAccounts [balanceIndex]]⟩)
      (indexedAccounts [balanceIndex]) "id" c₁ (accountsWorld [("a", "5")]) w₁ :=
    accountsAfter_step [("a", "5")] rfl rfl (fun k => by simp; grind) (by decide)
      (by decide) (by decide) rfl rfl
  have h₂ : RecordedStep (plainEnv ⟨[indexedAccounts [balanceIndex]]⟩)
      (indexedAccounts [balanceIndex]) "id" (accountChange 10 "b" none (some "5")) w₁ takenOver :=
    accountsAfter_step [] rfl rfl (fun k => by simp; grind) (by decide) (by decide)
      (by decide) rfl rfl
  exact ((History.start _).op h₁).op h₂

/-- The shadow row that puts `a` back comes first, and `ON CONFLICT DO NOTHING` skips it because
`b` is still there. -/
theorem rollback_takenOver :
    ((ReorgStore.rollbackFromBlock (plainEnv ⟨[indexedAccounts [balanceIndex]]⟩) "accounts" 10 "id"
      accountsTable.columnNames takenOver).2.tables "accounts").length = 0 := by
  decide +kernel

/-- With a further unique index a history with one operation on each key is not inverted. -/
theorem rollbackFromBlock_not_inverts_once :
    ¬∀ (env : Env String) (d : TableDef) (pk : String) (b : UInt64) (w₀ w₁ w : World String)
      (pre cs : List (RowChange String)), env.schema.find d.name = some d → d.pk = some pk →
      (∀ n, env.fate n = .executed) → TextTable env d pk (w₀.tables d.name) →
      w₀.shadow d.name = [] → History env d pk w₀ pre w₁ → History env d pk w₁ cs w →
      (∀ c ∈ pre, c.block < b.toNat) → (∀ c ∈ cs, b.toNat ≤ c.block) →
      ((pre ++ cs).Pairwise fun c c' => c.block ≤ c'.block) →
      ((pre ++ cs).Pairwise fun c c' => c.block = c'.block → c.key ≠ c'.key) →
      ∃ n w', ReorgStore.rollbackFromBlock env d.name b pk d.columnNames w = (.ok n, w') ∧
        (w'.tables d.name).Perm (w₁.tables d.name) ∧ w'.shadow d.name = pre.map shadowOf := by
  intro h
  obtain ⟨n, w', hrun, hperm, -⟩ := h _ (indexedAccounts [balanceIndex]) "id" 10 _ _ _ [] _ rfl rfl
    (fun _ => rfl) (textTable_accounts (by decide) (by decide)) rfl (History.start _)
    history_takenOver (fun _ hc => by simp at hc) (by decide) (by decide) (by decide)
  have hlost := rollback_takenOver
  have hw' := congrArg Prod.snd hrun
  change (ReorgStore.rollbackFromBlock _ "accounts" 10 "id" accountsTable.columnNames _).2 = w'
    at hw'
  rw [hw'] at hlost
  have hlen := hperm.length_eq
  have hone : ((accountsWorld [("a", "5")]).tables "accounts").length = 1 := rfl
  exact absurd (hlost.symm.trans (hlen.trans hone)) (by decide)

/-- An account that is opened in a block and then credited twice is taken back whatever order the
shadow rows come in. -/
theorem rollbackFromBlock_inverts_orderFree_accounts :
    let env := plainEnv ⟨[indexedAccounts []]⟩
    let c₁ := accountChange 10 "b" none (some "1")
    let c₂ := accountChange 10 "b" (some "1") (some "2")
    let w₁ := accountsAfter [] (accountsWorld [("a", "5")]) c₁ "1" [("a", "5"), ("b", "1")]
    let w₂ := accountsAfter [] w₁ c₂ "1" [("a", "5"), ("b", "2")]
    ∃ n w', ReorgStore.rollbackFromBlock env "accounts" 10 "id" accountsTable.columnNames w₂ =
        (.ok n, w') ∧
      (w'.tables "accounts").Perm (accounts [("a", "5")]) ∧ w'.shadow "accounts" = [] := by
  intro env c₁ c₂ w₁ w₂
  have h₁ : RecordedStep env (indexedAccounts []) "id" c₁ (accountsWorld [("a", "5")]) w₁ :=
    accountsAfter_step [("a", "5")] rfl rfl (fun k => by simp; grind) (by decide)
      (by decide) (by decide) rfl rfl
  have h₂ : RecordedStep env (indexedAccounts []) "id" c₂ w₁ w₂ :=
    accountsAfter_step [("a", "5"), ("b", "1")] rfl rfl (fun k => by simp; grind)
      (by decide) (by decide) (by decide) rfl rfl
  have hfree : BlocksFree (keyed "id" ((accountsWorld [("a", "5")]).tables "accounts"))
      ([] ++ [c₁] ++ [c₂]) := by
    intro block c hc
    have hcases : c = c₁ ∨ c = c₂ := by simpa using (List.mem_filter.mp hc).1
    have hblock : c.block = block := by simpa using (List.mem_filter.mp hc).2
    have hten : c.block = 10 := by rcases hcases with rfl | rfl <;> rfl
    have hbelow : below block ([] ++ [c₁] ++ [c₂]) = [] := by
      rw [← hblock, hten]
      rfl
    rw [hbelow]
    rcases hcases with rfl | rfl <;> exact rfl
  exact rollbackFromBlock_inverts_orderFree (d := indexedAccounts []) (b := 10) rfl rfl
    (fun _ => rfl) (by decide) (textTable_accounts (by decide) (by decide)) rfl (History.start _)
    (fun _ hc => by simp at hc) (((History.start _).op h₁).op h₂) (by decide) (by decide)
    hfree (mixesAdmitted_of_plain rfl (by decide) (by decide) rfl)

/-- Block 10 credits account `a` twice. -/
def credited : World String :=
  accountsAfter []
    (accountsAfter [] (accountsWorld [("a", "5")]) (accountChange 10 "a" (some "5") (some "6")) "5"
      [("a", "6")])
    (accountChange 10 "a" (some "6") (some "7")) "6" [("a", "7")]

theorem history_credited :
    History (plainEnv ⟨[indexedAccounts []]⟩) (indexedAccounts []) "id" (accountsWorld [("a", "5")])
      ([] ++ [accountChange 10 "a" (some "5") (some "6")] ++
        [accountChange 10 "a" (some "6") (some "7")]) credited := by
  let c₁ := accountChange 10 "a" (some "5") (some "6")
  let w₁ := accountsAfter [] (accountsWorld [("a", "5")]) c₁ "5" [("a", "6")]
  have h₁ : RecordedStep (plainEnv ⟨[indexedAccounts []]⟩) (indexedAccounts []) "id" c₁
      (accountsWorld [("a", "5")]) w₁ :=
    accountsAfter_step [("a", "5")] rfl rfl (fun k => by simp; grind) (by decide)
      (by decide) (by decide) rfl rfl
  have h₂ : RecordedStep (plainEnv ⟨[indexedAccounts []]⟩) (indexedAccounts []) "id"
      (accountChange 10 "a" (some "6") (some "7")) w₁ credited :=
    accountsAfter_step [("a", "6")] rfl rfl (fun k => by simp; grind) (by decide)
      (by decide) (by decide) rfl rfl
  exact ((History.start _).op h₁).op h₂

/-- The shadow rows come in the order in which they were written, and the balance between the two
credits is restored last. -/
theorem rollback_credited :
    ((ReorgStore.rollbackFromBlock (plainEnv ⟨[indexedAccounts []]⟩) "accounts" 10 "id"
      accountsTable.columnNames credited).2.tables "accounts").map (fun r => r "balance") =
      [some "6"] := by
  decide +kernel

/-- A history that touches a key twice in one block is not inverted. -/
theorem rollbackFromBlock_not_inverts_repeated :
    ¬∀ (env : Env String) (d : TableDef) (pk : String) (b : UInt64) (w₀ w₁ w : World String)
      (pre cs : List (RowChange String)), env.schema.find d.name = some d → d.pk = some pk →
      (∀ n, env.fate n = .executed) → TextTable env d pk (w₀.tables d.name) →
      w₀.shadow d.name = [] → History env d pk w₀ pre w₁ → History env d pk w₁ cs w →
      (∀ c ∈ pre, c.block < b.toNat) → (∀ c ∈ cs, b.toNat ≤ c.block) →
      ((pre ++ cs).Pairwise fun c c' => c.block ≤ c'.block) →
      ¬(cs.Pairwise fun c c' => c.block = c'.block → c.key ≠ c'.key) →
      ∃ n w', ReorgStore.rollbackFromBlock env d.name b pk d.columnNames w = (.ok n, w') ∧
        (w'.tables d.name).Perm (w₁.tables d.name) := by
  intro h
  obtain ⟨n, w', hrun, hperm⟩ := h _ (indexedAccounts []) "id" 10 _ _ _ [] _ rfl rfl
    (fun _ => rfl) (textTable_accounts (by decide) (by decide)) rfl (History.start _)
    history_credited (fun _ hc => by simp at hc) (by decide) (by decide) (by decide)
  have hsix := rollback_credited
  have hw' := congrArg Prod.snd hrun
  change (ReorgStore.rollbackFromBlock _ "accounts" 10 "id" accountsTable.columnNames _).2 = w'
    at hw'
  rw [hw'] at hsix
  have hperm' := hperm.map fun r => r "balance"
  have hfive : ((accountsWorld [("a", "5")]).tables "accounts").map (fun r => r "balance") =
      [some "5"] := rfl
  exact absurd (hsix ▸ hperm'.trans (List.Perm.of_eq hfive)) (by decide)

end Accounts

end ForgeIndex
