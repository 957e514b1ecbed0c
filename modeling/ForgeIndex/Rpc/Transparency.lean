import ForgeIndex.Lib.FirstOwner
import ForgeIndex.Rpc.LogCache

/-!
# When the log cache is transparent

The primary key of `ponder_sync.logs` does not say which filter a row was fetched for, so that a
log is stored under the first filter that selects it and under no other.  The calls are right
exactly as long as no filter meets rows of its own columns that are not its whole answer.
-/

namespace ForgeIndex

open FirstOwner

section Rows

variable (keccak256 : Bytes → Hash32)

theorem toInt_toInt32 {n : UInt32} (h : n.toNat < 2 ^ 31) : n.toInt32.toInt = n.toNat := by
  apply BitVec.toInt_eq_toNat_of_lt
  show 2 * n.toNat < 2 ^ 32
  omega

/-- The row of a log, or of the marker for an empty answer. -/
def rowOf (columns : FilterColumns) : Option Log → LogRow
  | none => sentinelRow columns
  | some l => logRow keccak256 columns l

@[simp] theorem filter_rowOf (columns : FilterColumns) (x : Option Log) :
    (rowOf keccak256 columns x).filter = columns := by
  cases x <;> rfl

variable {keccak256} {chain : Chain}

/-- What the row of a log gives back: the log under the id of its block hash and its signed index,
for the chain that asks. -/
theorem intoLog_logRow_eq (columns : FilterColumns) (chainId : UInt64) (l : Log) :
    (logRow keccak256 columns l).intoLog chainId =
      { l with id := logId l.blockHash.display l.logIndex.toInt32.toInt, chainId } := by
  have htopics : (l.topics.map Hash32.display).filterMap Hash32.fromHex = l.topics := by
    rw [List.filterMap_map]
    simp only [Function.comp_def, Hash32.fromHex_display, List.filterMap_some]
  unfold LogRow.intoLog logRow
  simp only [htopics, Address.fromHex_checksumHex, Hash32.fromHex_display, Option.getD_some,
    UInt64.toUInt64_toInt64, UInt32.toUInt32_toInt32]

theorem intoLog_logRow {l : Log} (columns : FilterColumns)
    (hid : l.id = logId l.blockHash.display l.logIndex.toNat) (hindex : l.logIndex.toNat < 2 ^ 31) :
    (logRow keccak256 columns l).intoLog l.chainId = l := by
  rw [intoLog_logRow_eq, toInt_toInt32 hindex, ← hid]

theorem position_inj {l l' : Log} (hl : l ∈ chain.logs) (hl' : l' ∈ chain.logs)
    (hblock : l.blockNumber = l'.blockNumber) (hindex : l.logIndex = l'.logIndex) : l = l' := by
  obtain ⟨i, hi, rfl⟩ := List.getElem_of_mem hl
  obtain ⟨j, hj, rfl⟩ := List.getElem_of_mem hl'
  have hord := List.pairwise_iff_getElem.mp chain.ordered
  rcases Nat.lt_trichotomy i j with hij | rfl | hij
  · rcases hord i j hi hj hij with h | ⟨-, h⟩
    · exact absurd (hblock ▸ h) (UInt64.lt_irrefl _)
    · exact absurd (hindex ▸ h) (UInt32.lt_irrefl _)
  · rfl
  · rcases hord j i hj hi hij with h | ⟨-, h⟩
    · exact absurd (hblock ▸ h) (UInt64.lt_irrefl _)
    · exact absurd (hindex ▸ h) (UInt32.lt_irrefl _)

/-- The marker or a log of the chain. -/
def Chain.Item (chain : Chain) (x : Option Log) : Prop := ∀ l, x = some l → l ∈ chain.logs

theorem blockNumber_ne_sentinel {l : Log} (hl : l ∈ chain.logs) : l.blockNumber.toInt64 ≠ -1 := by
  intro h
  have hint := congrArg Int64.toInt h
  rw [toInt_toInt64 (chain.block_lt l hl)] at hint
  have hneg : (-1 : Int64).toInt = -1 := by decide
  omega

theorem rowOf_key_inj {x y : Option Log} (hx : chain.Item x) (hy : chain.Item y)
    {columns columns' : FilterColumns}
    (h : (rowOf keccak256 columns x).key = (rowOf keccak256 columns' y).key) : x = y := by
  obtain ⟨-, hblock, hindex⟩ : _ ∧ (rowOf keccak256 columns x).blockNumber =
      (rowOf keccak256 columns' y).blockNumber ∧
      (rowOf keccak256 columns x).logIndex = (rowOf keccak256 columns' y).logIndex := by
    simpa [LogRow.key] using h
  cases x with
  | none =>
    cases y with
    | none => rfl
    | some l => exact absurd hblock.symm (blockNumber_ne_sentinel (hy l rfl))
  | some l =>
    cases y with
    | none => exact absurd hblock (blockNumber_ne_sentinel (hx l rfl))
    | some l' =>
      congr 1
      refine position_inj (hx l rfl) (hy l' rfl) ?_ ?_
      · have := congrArg Int64.toUInt64 hblock
        simpa [rowOf, logRow] using this
      · have := congrArg Int32.toUInt32 hindex
        simpa [rowOf, logRow] using this

end Rows

section Table

variable {keccak256 : Bytes → Hash32} {chain : Chain}

/-- The filters of `get_logs` as queries of the chain. -/
def logSource (keccak256 : Bytes → Hash32) (chain : Chain) :
    Source LogFilter FilterColumns Log where
  key := filterColumns keccak256 chain.chainId
  sel f l := l ∈ chain.logs ∧ f.selects l = true

/-- The rows of the table are those of the stored items. -/
structure Stored (keccak256 : Bytes → Hash32) (chain : Chain) (t : Store FilterColumns Log)
    (rows : List LogRow) : Prop where
  mem_iff : ∀ r, r ∈ rows ↔ ∃ x columns, t x = some columns ∧ r = rowOf keccak256 columns x
  nodup : rows.Nodup
  item : ∀ x columns, t x = some columns → chain.Item x
  chainId : ∀ x columns, t x = some columns → columns.chainId = chain.chainId.toInt64

variable {t : Store FilterColumns Log} {rows : List LogRow}

theorem stored_empty : Stored keccak256 chain (owner (logSource keccak256 chain) []) [] where
  mem_iff r := by simp [owner]
  nodup := List.nodup_nil
  item x columns h := by simp [owner] at h
  chainId x columns h := by simp [owner] at h

/-- `ON CONFLICT DO NOTHING` on the table. -/
def addRow (rows : List LogRow) (r : LogRow) : List LogRow :=
  if rows.any fun s => s.key = r.key then rows else rows ++ [r]

theorem Stored.addRow (h : Stored keccak256 chain t rows) {x : Option Log} (hx : chain.Item x)
    {columns : FilterColumns} (hchain : columns.chainId = chain.chainId.toInt64) :
    Stored keccak256 chain (fun y => (t y).or (if y = x then some columns else none))
      (ForgeIndex.addRow rows (rowOf keccak256 columns x)) := by
  have hany : (rows.any fun s => s.key = (rowOf keccak256 columns x).key) = true ↔
      (t x).isSome := by
    rw [List.any_eq_true]
    constructor
    · intro ⟨r, hr, hkey⟩
      obtain ⟨y, columns', hy, rfl⟩ := (h.mem_iff r).mp hr
      have hxy := rowOf_key_inj (h.item y columns' hy) hx (of_decide_eq_true hkey)
      rw [← hxy, hy]
      rfl
    · intro hsome
      obtain ⟨columns', hx'⟩ := Option.isSome_iff_exists.mp hsome
      refine ⟨rowOf keccak256 columns' x, (h.mem_iff _).mpr ⟨x, columns', hx', rfl⟩, ?_⟩
      have hc : columns'.chainId = columns.chainId := (h.chainId x columns' hx').trans hchain.symm
      cases x <;> simp [rowOf, sentinelRow, logRow, LogRow.key, hc]
  unfold ForgeIndex.addRow
  by_cases hsome : (t x).isSome
  · rw [if_pos (hany.mpr hsome)]
    obtain ⟨columns', hx'⟩ := Option.isSome_iff_exists.mp hsome
    have hsame : (fun y => (t y).or (if y = x then some columns else none)) = t := by
      funext y
      by_cases hyx : y = x
      · rw [hyx, hx']
        rfl
      · rw [if_neg hyx, Option.or_none]
    rw [hsame]
    exact h
  · rw [if_neg (fun hc => hsome (hany.mp hc))]
    have hnone : t x = none := by simpa using hsome
    have hput (y : Option Log) (columns' : FilterColumns) :
        (t y).or (if y = x then some columns else none) = some columns' ↔
          t y = some columns' ∨ (y = x ∧ columns = columns') := by
      by_cases hyx : y = x
      · subst hyx
        simp [hnone]
      · simp [hyx]
    refine ⟨fun r => ?_, ?_, fun y columns' hy => ?_, fun y columns' hy => ?_⟩
    · rw [List.mem_append, List.mem_singleton, h.mem_iff]
      constructor
      · rintro (⟨y, columns', hy, hr⟩ | hr)
        · exact ⟨y, columns', (hput y columns').mpr (.inl hy), hr⟩
        · exact ⟨x, columns, (hput x columns).mpr (.inr ⟨rfl, rfl⟩), hr⟩
      · rintro ⟨y, columns', hy, hr⟩
        rcases (hput y columns').mp hy with hy | ⟨rfl, rfl⟩
        · exact .inl ⟨y, columns', hy, hr⟩
        · exact .inr hr
    · rw [List.nodup_append]
      refine ⟨h.nodup, List.nodup_singleton _, fun r hr s hs hrs => ?_⟩
      rw [List.mem_singleton.mp hs] at hrs
      have hin := hany.mp (List.any_eq_true.mpr ⟨r, hr, by rw [hrs]; exact decide_eq_true rfl⟩)
      rw [hnone] at hin
      cases hin
    · rcases (hput y columns').mp hy with hy | ⟨rfl, -⟩
      · exact h.item y columns' hy
      · exact hx
    · rcases (hput y columns').mp hy with hy | ⟨-, rfl⟩
      · exact h.chainId y columns' hy
      · exact hchain

theorem Stored.addRows (h : Stored keccak256 chain t rows) {xs : List (Option Log)}
    (hxs : ∀ x ∈ xs, chain.Item x) {columns : FilterColumns}
    (hchain : columns.chainId = chain.chainId.toInt64) :
    Stored keccak256 chain (fun y => (t y).or (if y ∈ xs then some columns else none))
      ((xs.map (rowOf keccak256 columns)).foldl ForgeIndex.addRow rows) := by
  induction xs generalizing t rows with
  | nil =>
    have hsame : (fun y => (t y).or (if y ∈ ([] : List (Option Log)) then some columns else none)) =
        t := by
      funext y
      rw [if_neg (List.not_mem_nil), Option.or_none]
    rw [hsame]
    exact h
  | cons x xs ih =>
    have hrest := ih (h.addRow (hxs x List.mem_cons_self) hchain)
      fun y hy => hxs y (List.mem_cons_of_mem _ hy)
    have hsame : (fun y => (t y).or (if y ∈ x :: xs then some columns else none)) =
        fun y => ((t y).or (if y = x then some columns else none)).or
          (if y ∈ xs then some columns else none) := by
      funext y
      rw [Option.or_assoc]
      congr 1
      by_cases hyx : y = x <;> by_cases hyxs : y ∈ xs <;> simp [hyx, hyxs]
    rw [hsame]
    exact hrest

/-- What `put_logs` stores for an answer. -/
def itemsOf (logs : List Log) : List (Option Log) :=
  if logs.isEmpty then [none] else logs.map some

theorem mem_itemsOf_answer (keccak256 : Bytes → Hash32) (f : LogFilter) (x : Option Log) :
    x ∈ itemsOf (chain.answer f) ↔ (logSource keccak256 chain).picks f x := by
  have hmem (l : Log) : l ∈ chain.answer f ↔ (logSource keccak256 chain).sel f l := List.mem_filter
  unfold itemsOf
  by_cases hempty : (chain.answer f).isEmpty
  · rw [if_pos hempty]
    rw [List.isEmpty_iff] at hempty
    have hno : ∀ l, ¬(logSource keccak256 chain).sel f l := by
      intro l hl
      rw [← hmem, hempty] at hl
      simp at hl
    cases x with
    | none => exact iff_of_true (List.mem_singleton_self _) hno
    | some l => exact iff_of_false (by simp) (hno l)
  · rw [if_neg hempty]
    cases x with
    | none =>
      refine iff_of_false (by simp) fun hno => hempty ?_
      rw [List.isEmpty_iff, List.eq_nil_iff_forall_not_mem]
      exact fun l hl => hno l ((hmem l).mp hl)
    | some l =>
      show _ ↔ (logSource keccak256 chain).sel f l
      rw [← hmem l]
      simp

theorem Stored.put (h : Stored keccak256 chain t rows) (f : LogFilter) :
    Stored keccak256 chain (t.put (logSource keccak256 chain) f)
      (((itemsOf (chain.answer f)).map
        (rowOf keccak256 (filterColumns keccak256 chain.chainId f))).foldl ForgeIndex.addRow rows) := by
  have hitems : ∀ x ∈ itemsOf (chain.answer f), chain.Item x := by
    intro x hx l hl
    subst hl
    exact ((mem_itemsOf_answer keccak256 f (some l)).mp hx).1
  have hput : t.put (logSource keccak256 chain) f = fun y => (t y).or
      (if y ∈ itemsOf (chain.answer f) then some (filterColumns keccak256 chain.chainId f)
        else none) := by
    funext y
    unfold Store.put
    by_cases hy : y ∈ itemsOf (chain.answer f)
    · rw [if_pos hy, if_pos ((mem_itemsOf_answer keccak256 f y).mp hy)]
      rfl
    · rw [if_neg hy, if_neg fun hc => hy ((mem_itemsOf_answer keccak256 f y).mpr hc)]
  rw [hput]
  exact h.addRows hitems rfl

theorem Stored.mem_rowsFor (h : Stored keccak256 chain t rows) (columns : FilterColumns)
    (r : LogRow) : r ∈ rowsFor columns rows ↔
      ∃ x, t x = some columns ∧ r = rowOf keccak256 columns x := by
  unfold rowsFor
  rw [List.mem_filter, h.mem_iff]
  constructor
  · rintro ⟨⟨x, columns', hx, rfl⟩, hfilter⟩
    rw [filter_rowOf, decide_eq_true_eq] at hfilter
    subst hfilter
    exact ⟨x, hx, rfl⟩
  · rintro ⟨x, hx, rfl⟩
    exact ⟨⟨x, columns, hx, rfl⟩, by rw [filter_rowOf]; exact decide_eq_true rfl⟩

theorem Stored.hit_iff (h : Stored keccak256 chain t rows) (columns : FilterColumns) :
    t.Hit columns ↔ (rowsFor columns rows).length ≠ 0 := by
  rw [← Nat.pos_iff_ne_zero, List.length_pos_iff_exists_mem]
  constructor
  · intro ⟨x, hx⟩
    exact ⟨_, (h.mem_rowsFor columns _).mpr ⟨x, hx, rfl⟩⟩
  · intro ⟨r, hr⟩
    obtain ⟨x, hx, -⟩ := (h.mem_rowsFor columns r).mp hr
    exact ⟨x, hx⟩

theorem le_logRow {a b : Log} (ha : a ∈ chain.logs) (hb : b ∈ chain.logs)
    (hab : a.blockNumber < b.blockNumber ∨
      (a.blockNumber = b.blockNumber ∧ a.logIndex < b.logIndex)) (columns : FilterColumns) :
    (logRow keccak256 columns a).le (logRow keccak256 columns b) := by
  unfold LogRow.le logRow
  dsimp only
  rcases hab with h | ⟨h, h'⟩
  · left
    rw [Int64.lt_iff_toInt_lt, toInt_toInt64 (chain.block_lt a ha),
      toInt_toInt64 (chain.block_lt b hb)]
    exact Int.ofNat_lt.mpr (UInt64.lt_iff_toNat_lt.mp h)
  · right
    refine ⟨congrArg UInt64.toInt64 h, ?_⟩
    rw [Int32.le_iff_toInt_le, toInt_toInt32 (chain.index_lt a ha),
      toInt_toInt32 (chain.index_lt b hb)]
    exact Int.ofNat_le.mpr (Nat.le_of_lt (UInt32.lt_iff_toNat_lt.mp h'))

theorem sentinel_le_logRow {l : Log} (hl : l ∈ chain.logs) (columns : FilterColumns) :
    (sentinelRow columns).le (logRow keccak256 columns l) := by
  left
  rw [Int64.lt_iff_toInt_lt]
  show (-1 : Int64).toInt < l.blockNumber.toInt64.toInt
  rw [toInt_toInt64 (chain.block_lt l hl)]
  have hneg : (-1 : Int64).toInt = -1 := by decide
  omega

theorem Stored.antisymm (h : Stored keccak256 chain t rows) {columns : FilterColumns}
    {r s : LogRow} (hr : r ∈ rowsFor columns rows) (hs : s ∈ rowsFor columns rows)
    (hrs : r.le s) (hsr : s.le r) : r = s := by
  obtain ⟨x, hx, rfl⟩ := (h.mem_rowsFor columns r).mp hr
  obtain ⟨y, hy, rfl⟩ := (h.mem_rowsFor columns s).mp hs
  have hxy : x = y := by
    apply rowOf_key_inj (h.item x columns hx) (h.item y columns hy)
    unfold LogRow.le at hrs hsr
    unfold LogRow.key
    have hblock : (rowOf keccak256 columns x).blockNumber =
        (rowOf keccak256 columns y).blockNumber := by
      rcases hrs with hrs | hrs
      · rcases hsr with hsr | hsr
        · exact (Int64.lt_irrefl (Int64.lt_trans hrs hsr)).elim
        · exact hsr.1.symm
      · exact hrs.1
    have hindex : (rowOf keccak256 columns x).logIndex = (rowOf keccak256 columns y).logIndex := by
      rw [hblock] at hrs hsr
      exact Int32.le_antisymm (hrs.resolve_left Int64.lt_irrefl).2 (hsr.resolve_left Int64.lt_irrefl).2
    rw [hblock, hindex, filter_rowOf, filter_rowOf]
  rw [hxy]

instance : Std.Total LogRow.le := ⟨fun a b => by
  unfold LogRow.le
  simp only [Int64.lt_iff_toInt_lt, Int32.le_iff_toInt_le, ← Int64.toInt_inj]
  omega⟩

instance : IsTrans LogRow LogRow.le := ⟨fun a b c hab hbc => by
  unfold LogRow.le at *
  simp only [Int64.lt_iff_toInt_lt, Int32.le_iff_toInt_le, ← Int64.toInt_inj] at *
  omega⟩

/-- The logs of the chain that are stored under some filter columns. -/
def ownedLogs (chain : Chain) (t : Store FilterColumns Log) (columns : FilterColumns) : List Log :=
  chain.logs.filter fun l => t (some l) = some columns

/-- The rows of a filter in order: the marker, if there is one, and then the logs. -/
theorem Stored.sort_rowsFor (h : Stored keccak256 chain t rows) (columns : FilterColumns) :
    (rowsFor columns rows).insertionSort LogRow.le =
      (if t none = some columns then [sentinelRow columns] else []) ++
        (ownedLogs chain t columns).map (logRow keccak256 columns) := by
  have howned (l : Log) (hl : l ∈ ownedLogs chain t columns) : l ∈ chain.logs :=
    (List.mem_filter.mp hl).1
  have hmem (r : LogRow) : r ∈ (if t none = some columns then [sentinelRow columns] else []) ++
      (ownedLogs chain t columns).map (logRow keccak256 columns) ↔ r ∈ rowsFor columns rows := by
    rw [h.mem_rowsFor, List.mem_append, List.mem_map]
    constructor
    · rintro (hr | ⟨l, hl, rfl⟩)
      · split_ifs at hr with hnone
        · exact ⟨none, hnone, List.mem_singleton.mp hr⟩
        · simp at hr
      · exact ⟨some l, of_decide_eq_true (List.mem_filter.mp hl).2, rfl⟩
    · rintro ⟨x, hx, rfl⟩
      cases x with
      | none => exact .inl (by rw [if_pos hx]; exact List.mem_singleton_self _)
      | some l => exact .inr ⟨l, List.mem_filter.mpr ⟨h.item (some l) columns hx l rfl,
          decide_eq_true hx⟩, rfl⟩
  have hsorted : ((if t none = some columns then [sentinelRow columns] else []) ++
      (ownedLogs chain t columns).map (logRow keccak256 columns)).Pairwise LogRow.le := by
    rw [List.pairwise_append]
    refine ⟨?_, ?_, ?_⟩
    · split_ifs <;> simp
    · rw [List.pairwise_map]
      have hord := chain.ordered.sublist
        (List.filter_sublist (p := fun l => decide (t (some l) = some columns)))
      exact hord.imp_of_mem fun ha hb hab => le_logRow (howned _ ha) (howned _ hb) hab columns
    · intro r hr s hs
      obtain ⟨l, hl, rfl⟩ := List.mem_map.mp hs
      split_ifs at hr
      · rw [List.mem_singleton.mp hr]
        exact sentinel_le_logRow (howned l hl) columns
      · simp at hr
  have hnodup : ((if t none = some columns then [sentinelRow columns] else []) ++
      (ownedLogs chain t columns).map (logRow keccak256 columns)).Nodup := by
    rw [List.nodup_append]
    refine ⟨?_, ?_, ?_⟩
    · split_ifs <;> simp
    · refine List.Nodup.map_on (fun a ha b hb hab => ?_) (List.Nodup.filter _ ?_)
      · have hkey : (rowOf keccak256 columns (some a)).key = (rowOf keccak256 columns (some b)).key :=
          congrArg LogRow.key hab
        exact Option.some.inj (rowOf_key_inj (fun l hl => Option.some.inj hl ▸ howned a ha)
          (fun l hl => Option.some.inj hl ▸ howned b hb) hkey)
      · refine chain.ordered.imp fun {a b} hab heq => ?_
        subst heq
        rcases hab with hab | hab
        · exact UInt64.lt_irrefl _ hab
        · exact UInt32.lt_irrefl _ hab.2
    · intro r hr s hs hrs
      obtain ⟨l, hl, rfl⟩ := List.mem_map.mp hs
      split_ifs at hr
      · rw [List.mem_singleton.mp hr] at hrs
        exact blockNumber_ne_sentinel (howned l hl) (congrArg LogRow.blockNumber hrs).symm
      · simp at hr
  have hperm : ((rowsFor columns rows).insertionSort LogRow.le).Perm
      ((if t none = some columns then [sentinelRow columns] else []) ++
        (ownedLogs chain t columns).map (logRow keccak256 columns)) := by
    refine (List.perm_insertionSort _ _).trans ?_
    exact (List.perm_ext_iff_of_nodup (h.nodup.filter _) hnodup).mpr fun r => (hmem r).symm
  refine List.Perm.eq_of_pairwise (fun r s hr hs => ?_) (List.pairwise_insertionSort _ _) hsorted hperm
  exact h.antisymm ((List.perm_insertionSort _ _).mem_iff.mp hr) ((hmem s).mp hs)

theorem Stored.read (h : Stored keccak256 chain t rows) (columns : FilterColumns) :
    ((((rowsFor columns rows).insertionSort LogRow.le).map fun r =>
      r.intoLog chain.chainId).filter fun l => l.logIndex ≠ 4294967295) =
        ownedLogs chain t columns := by
  rw [h.sort_rowsFor columns, List.map_append, List.filter_append]
  have hmarker : (((if t none = some columns then [sentinelRow columns] else []).map fun r =>
      r.intoLog chain.chainId).filter fun l => l.logIndex ≠ 4294967295) = [] := by
    have hindex : ((sentinelRow columns).intoLog chain.chainId).logIndex = 4294967295 := by
      show (-1 : Int32).toUInt32 = 4294967295
      decide
    split_ifs
    · simp [hindex]
    · rfl
  have hlogs : ((ownedLogs chain t columns).map (logRow keccak256 columns)).map
      (fun r => r.intoLog chain.chainId) = ownedLogs chain t columns := by
    rw [List.map_map]
    refine (List.map_congr_left fun l hl => ?_).trans (List.map_id _)
    have hmem := (List.mem_filter.mp hl).1
    show (logRow keccak256 columns l).intoLog chain.chainId = l
    rw [← chain.chainId_eq l hmem]
    exact intoLog_logRow columns (chain.id_eq l hmem) (chain.index_lt l hmem)
  rw [hmarker, hlogs, List.nil_append, List.filter_eq_self]
  intro l hl
  have hindex := chain.index_lt l (List.mem_filter.mp hl).1
  rw [decide_eq_true_eq]
  intro hmax
  rw [hmax] at hindex
  revert hindex
  decide

end Table

theorem ownedLogs_eq_answer_iff {keccak256 : Bytes → Hash32} {chain : Chain}
    {t : Store FilterColumns Log} {rows : List LogRow} (h : Stored keccak256 chain t rows)
    (f : LogFilter) :
    ownedLogs chain t (filterColumns keccak256 chain.chainId f) = chain.answer f ↔
      (fun l => t (some l) = some (filterColumns keccak256 chain.chainId f)) =
        (logSource keccak256 chain).sel f := by
  constructor
  · intro heq
    funext l
    apply propext
    constructor
    · intro hl
      have hmem : l ∈ chain.answer f := by
        rw [← heq]
        exact List.mem_filter.mpr ⟨h.item (some l) _ hl l rfl, decide_eq_true hl⟩
      exact List.mem_filter.mp hmem
    · intro hl
      have hmem : l ∈ ownedLogs chain t (filterColumns keccak256 chain.chainId f) := by
        rw [heq]
        exact List.mem_filter.mpr hl
      exact of_decide_eq_true (List.mem_filter.mp hmem).2
  · intro heq
    unfold ownedLogs Chain.answer
    apply List.filter_congr
    intro l hl
    have hiff := iff_of_eq (congrFun heq l)
    by_cases hsel : f.selects l = true
    · rw [hsel]
      exact decide_eq_true (hiff.mpr ⟨hl, hsel⟩)
    · rw [Bool.not_eq_true] at hsel
      rw [hsel, decide_eq_false_iff_not]
      intro hown
      have hs := (hiff.mp hown).2
      rw [hsel] at hs
      cases hs

section Calls

variable (keccak256 : Bytes → Hash32) (chain : Chain) (chainId : UInt64) {fate : ℕ → Fate}
  {ε : Type}

theorem putLogs_eq (f : LogFilter) (logs : List Log) :
    RpcCacheStore.putLogs keccak256 fate chainId f logs = Proc.forEach (insertLogRow fate)
      ((itemsOf logs).map (rowOf keccak256 (filterColumns keccak256 chainId f))) := by
  unfold RpcCacheStore.putLogs itemsOf
  by_cases hempty : logs.isEmpty
  · rw [if_pos hempty, if_pos hempty, List.isEmpty_iff.mp hempty]
    exact (Proc.forEach_singleton _ _).symm
  · rw [if_neg hempty, if_neg hempty, Proc.bind_pure_unit, List.map_map, Proc.forEach_map]
    rfl

/-- What `get_logs` makes of the rows of a filter. -/
def served (f : LogFilter) (rows : List LogRow) : Option (List Log) :=
  if (rowsFor (filterColumns keccak256 chainId f) rows).length = 0 then none
  else some (((rowsFor (filterColumns keccak256 chainId f) rows).insertionSort LogRow.le).map
    fun r => r.intoLog chainId)

variable (hfate : ∀ n, fate n = .executed)

include hfate

theorem sendCache_executed (w : RpcCache) :
    sendCache fate w = (.ok (), { w with clock := w.clock + 1 }) := by
  unfold sendCache
  rw [hfate]

theorem insertLogRow_executed (r : LogRow) (w : RpcCache) :
    insertLogRow fate r w =
      (.ok (), { w with clock := w.clock + 1, logs := addRow w.logs r }) :=
  Proc.bind_of_ok (sendCache_executed hfate w)

theorem insertLogRows_executed (rs : List LogRow) (w : RpcCache) :
    ∃ clock, Proc.forEach (insertLogRow fate) rs w =
      (.ok (), { w with clock, logs := rs.foldl addRow w.logs }) := by
  induction rs generalizing w with
  | nil => exact ⟨w.clock, rfl⟩
  | cons r rs ih =>
    obtain ⟨clock, hrest⟩ := ih { w with clock := w.clock + 1, logs := addRow w.logs r }
    exact ⟨clock, Proc.forEach_cons_ok_iff.mpr ⟨_, insertLogRow_executed hfate r w, hrest⟩⟩

theorem putLogs_executed (f : LogFilter) (logs : List Log) (w : RpcCache) :
    ∃ clock, RpcCacheStore.putLogs keccak256 fate chainId f logs w =
      (.ok (), { w with clock, logs := ((itemsOf logs).map
        (rowOf keccak256 (filterColumns keccak256 chainId f))).foldl addRow w.logs }) := by
  rw [putLogs_eq]
  exact insertLogRows_executed hfate _ w

theorem storeGetLogs_executed (f : LogFilter) (w : RpcCache) :
    ∃ clock, RpcCacheStore.getLogs keccak256 fate chainId f w =
      (.ok (served keccak256 chainId f w.logs), { w with clock }) := by
  unfold RpcCacheStore.getLogs served
  rw [Proc.bind_of_ok (sendCache_executed hfate w)]
  by_cases hempty : (rowsFor (filterColumns keccak256 chainId f) w.logs).length = 0
  · refine ⟨w.clock + 1, ?_⟩
    rw [if_pos hempty]
    refine Proc.bind_ok_iff.mpr ⟨_, _, rfl, ?_⟩
    rw [if_pos hempty]
    rfl
  · refine ⟨w.clock + 2, ?_⟩
    rw [if_neg hempty]
    refine Proc.bind_ok_iff.mpr ⟨_, _, rfl, ?_⟩
    rw [if_neg hempty]
    exact Proc.bind_ok_iff.mpr ⟨(), _, sendCache_executed hfate _, rfl⟩

theorem getLogs_step {inner : LogFilter → Except ε (List Log)} {t : Store FilterColumns Log}
    (f : LogFilter) (hinner : inner f = .ok (chain.answer f)) {w : RpcCache}
    (h : Stored keccak256 chain t w.logs) :
    ∃ ans w', CachedRpcClient.getLogs keccak256 fate inner chain.chainId f w = (.ok ans, w') ∧
      (ans = chain.answer f ↔
        (step (logSource keccak256 chain) t f).1 = (logSource keccak256 chain).sel f) ∧
      Stored keccak256 chain (step (logSource keccak256 chain) t f).2 w'.logs := by
  obtain ⟨clock, hget⟩ := storeGetLogs_executed keccak256 chain.chainId hfate f w
  unfold served at hget
  unfold step
  by_cases hhit : t.Hit (filterColumns keccak256 chain.chainId f)
  · have hne := (h.hit_iff _).mp hhit
    rw [if_neg hne] at hget
    rw [if_pos (show t.Hit ((logSource keccak256 chain).key f) from hhit)]
    refine ⟨ownedLogs chain t (filterColumns keccak256 chain.chainId f),
      { w with clock, hits := w.hits + 1 }, ?_, ?_, h⟩
    · refine Proc.bind_ok_iff.mpr ⟨_, _, Proc.attempt_of_ok hget, ?_⟩
      refine Proc.bind_ok_iff.mpr ⟨(), _, rfl, ?_⟩
      rw [← h.read]
      rfl
    · exact (ownedLogs_eq_answer_iff h f)
  · have hempty : (rowsFor (filterColumns keccak256 chain.chainId f) w.logs).length = 0 := by
      by_contra hne
      exact hhit ((h.hit_iff _).mpr hne)
    rw [if_pos hempty] at hget
    rw [if_neg (show ¬t.Hit ((logSource keccak256 chain).key f) from hhit)]
    obtain ⟨clock', hput⟩ := putLogs_executed keccak256 chain.chainId hfate f (chain.answer f)
      { w with clock, misses := w.misses + 1 }
    refine ⟨chain.answer f, { w with
      clock := clock'
      misses := w.misses + 1
      logs := ((itemsOf (chain.answer f)).map
        (rowOf keccak256 (filterColumns keccak256 chain.chainId f))).foldl addRow w.logs },
      ?_, iff_of_true rfl rfl, h.put f⟩
    refine Proc.bind_ok_iff.mpr ⟨_, _, Proc.attempt_of_ok hget, ?_⟩
    refine Proc.bind_ok_iff.mpr ⟨(), _, rfl, Proc.bind_ok_iff.mpr ⟨chain.answer f, _, ?_,
      Proc.bind_ok_iff.mpr ⟨(), _, Proc.ignore_of_ok hput, rfl⟩⟩⟩
    rw [hinner]
    rfl

/-- All calls return what the node returns if and only if each filter of the sequence finds
nothing under its columns, or exactly its own answer: the logs (or the empty answer) that were
first selected by an earlier filter with the same columns. -/
theorem getLogs_transparent_iff {inner : LogFilter → Except ε (List Log)}
    (hinner : ∀ f, inner f = .ok (chain.answer f)) (fs : List LogFilter) :
    (∃ w, Proc.mapEach (CachedRpcClient.getLogs keccak256 fate inner chain.chainId) fs
        RpcCache.empty = (.ok (fs.map chain.answer), w)) ↔
      ∀ past f rest, fs = past ++ f :: rest → Clean (logSource keccak256 chain) past f := by
  suffices hgen : ∀ past w, Stored keccak256 chain (owner (logSource keccak256 chain) past) w.logs →
      ((∃ w', Proc.mapEach (CachedRpcClient.getLogs keccak256 fate inner chain.chainId) fs w =
          (.ok (fs.map chain.answer), w')) ↔
        ∀ pre f rest, fs = pre ++ f :: rest →
          Clean (logSource keccak256 chain) (past ++ pre) f) from
    hgen [] RpcCache.empty stored_empty
  induction fs with
  | nil =>
    intro past w _
    refine iff_of_true ⟨w, rfl⟩ fun pre f rest h => ?_
    simp at h
  | cons f fs ih =>
    intro past w hw
    obtain ⟨ans, w', hget, hans, hstored⟩ := getLogs_step keccak256 chain hfate f (hinner f) hw
    rw [step_answer_iff] at hans
    constructor
    · rintro ⟨w'', hall⟩ pre g rest hsplit
      obtain ⟨a, w₁, as, hfirst, hrest, heq⟩ := Proc.mapEach_cons_ok_iff.mp hall
      rw [hget] at hfirst
      cases hfirst
      rw [List.map_cons, List.cons.injEq] at heq
      have hclean := hans.mp heq.1.symm
      rw [step_store (step_answer_iff.mpr hclean)] at hstored
      cases pre with
      | nil =>
        cases hsplit
        rw [List.append_nil]
        exact hclean
      | cons g' pre =>
        cases hsplit
        have hlater := (ih (past ++ [f]) w' hstored).mp ⟨w'', by rw [hrest, heq.2]⟩ pre g rest rfl
        rw [List.append_assoc] at hlater
        exact hlater
    · intro hall
      have hclean : Clean (logSource keccak256 chain) past f := by
        have h := hall [] f fs rfl
        rw [List.append_nil] at h
        exact h
      rw [step_store (step_answer_iff.mpr hclean)] at hstored
      obtain ⟨w'', hrest⟩ := (ih (past ++ [f]) w' hstored).mpr fun pre g rest hsplit => by
        rw [List.append_assoc]
        exact hall (f :: pre) g rest (by rw [hsplit]; rfl)
      refine ⟨w'', Proc.mapEach_cons_ok_iff.mpr ⟨ans, w', _, hget, hrest, ?_⟩⟩
      rw [List.map_cons, hans.mpr hclean]

end Calls

/-- The Keccak hash of the text of forty zeros, which is all that the address zero asks for. -/
def keccakOfZeros (_ : Bytes) : Hash32 where
  bytes := [204, 197, 39, 254, 31, 147, 145, 191, 244, 68, 153, 77, 220, 164, 4, 190, 209, 220, 0,
    138, 6, 111, 247, 241, 178, 67, 225, 21, 202, 183, 7, 32]
  size := rfl

/-- The first log of a block, from the address zero. -/
def firstLogOf (blockNumber : UInt64) : Log where
  id := logId Hash32.zero.display 0
  chainId := 1
  address := Address.zero
  topics := []
  data := []
  blockNumber := blockNumber
  blockHash := Hash32.zero
  transactionHash := Hash32.zero
  logIndex := 0
  transactionIndex := 0
  removed := false

/-- Three blocks with a log each. -/
def smallChain : Chain where
  chainId := 1
  logs := [firstLogOf 3, firstLogOf 7, firstLogOf 12]
  ordered := by decide
  id_eq := by decide +kernel
  chainId_eq := by decide
  block_lt := by decide
  index_lt := by decide

/-- The filter for a range of blocks. -/
def blocksFilter (fromBlock toBlock : UInt64) : LogFilter := ⟨[], [], fromBlock, toBlock⟩

/-- Two ranges without a common log, the first of them asked for twice. -/
theorem getLogs_transparent_iff_disjoint :
    let fs := [blocksFilter 0 10, blocksFilter 11 15, blocksFilter 0 10]
    ∀ past f rest, fs = past ++ f :: rest → Clean (logSource keccakOfZeros smallChain) past f := by
  intro fs
  have hrun : (Proc.mapEach (CachedRpcClient.getLogs keccakOfZeros (fun _ => .executed)
      (fun f => (.ok (smallChain.answer f) : Except Unit (List Log))) smallChain.chainId) fs
        RpcCache.empty).1 = .ok (fs.map smallChain.answer) := by decide +kernel
  exact (getLogs_transparent_iff keccakOfZeros smallChain (fun _ => rfl) (fun _ => rfl) fs).mp
    ⟨_, Proc.eq_ok_of_fst hrun⟩

/-- Overlapping ranges break the cache: the second range is stored without the log that the first
one has stored, and asking for it again returns what was stored. -/
theorem getLogs_not_transparent :
    ¬∀ (chain : Chain) (fs : List LogFilter), ∃ w,
      Proc.mapEach (CachedRpcClient.getLogs keccakOfZeros (fun _ => .executed)
        (fun f => (.ok (chain.answer f) : Except Unit (List Log))) chain.chainId) fs
          RpcCache.empty = (.ok (fs.map chain.answer), w) := by
  intro h
  obtain ⟨w, hrun⟩ := h smallChain [blocksFilter 0 10, blocksFilter 5 15, blocksFilter 5 15]
  have hwrong : (Proc.mapEach (CachedRpcClient.getLogs keccakOfZeros (fun _ => .executed)
      (fun f => (.ok (smallChain.answer f) : Except Unit (List Log))) smallChain.chainId)
        [blocksFilter 0 10, blocksFilter 5 15, blocksFilter 5 15] RpcCache.empty).1 ≠
      .ok ([blocksFilter 0 10, blocksFilter 5 15, blocksFilter 5 15].map smallChain.answer) := by
    decide +kernel
  exact hwrong (congrArg Prod.fst hrun)

end ForgeIndex
