import ForgeIndex.Backfill.NoLoss
import ForgeIndex.Backfill.Ownership
import ForgeIndex.Lib.FirstWins

/-!
# Interrupted runs converge

However often a backfill is stopped and started again, each table is at every moment the result of
inserting, in the order of the chain, the rows of the events up to some block of its own, and no
such block lies before the checkpoint.  Going back over blocks changes nothing.
-/

namespace ForgeIndex

open WriteBuffer (Holds)
open FirstWins

/-- In a list ordered by `f`, the part of an interval is the part before a point of it followed
by the part after. -/
theorem filter_interval_append {α : Type} {f : α → ℕ} {l : List α}
    (hl : l.Pairwise fun a b => f a ≤ f b) {lo mid hi : ℕ} (hlo : lo ≤ mid) (hhi : mid ≤ hi) :
    (l.filter fun a => lo ≤ f a ∧ f a < hi) =
      (l.filter fun a => lo ≤ f a ∧ f a < mid) ++ l.filter fun a => mid ≤ f a ∧ f a < hi := by
  induction l with
  | nil => rfl
  | cons a l ih =>
    rw [List.pairwise_cons] at hl
    have ih := ih hl.2
    by_cases hmid : f a < mid
    · by_cases ha : lo ≤ f a
      · rw [List.filter_cons_of_pos (by rw [decide_eq_true_eq]; omega),
          List.filter_cons_of_pos (by rw [decide_eq_true_eq]; omega),
          List.filter_cons_of_neg (by rw [decide_eq_true_eq]; omega), ih, List.cons_append]
      · rw [List.filter_cons_of_neg (by rw [decide_eq_true_eq]; omega),
          List.filter_cons_of_neg (by rw [decide_eq_true_eq]; omega),
          List.filter_cons_of_neg (by rw [decide_eq_true_eq]; omega), ih]
    · -- from here on nothing lies before the point
      have hnone : ((a :: l).filter fun b => lo ≤ f b ∧ f b < mid) = [] := by
        rw [List.filter_eq_nil_iff]
        intro b hb
        have hab : f a ≤ f b := by
          rcases List.mem_cons.mp hb with rfl | hb
          · omega
          · exact hl.1 b hb
        simp only [decide_eq_true_eq]
        omega
      rw [hnone, List.nil_append]
      apply List.filter_congr
      intro b hb
      have hab : f a ≤ f b := by
        rcases List.mem_cons.mp hb with rfl | hb
        · omega
        · exact hl.1 b hb
      apply decide_eq_decide.mpr
      omega

/-- Strict chain order. -/
def DecodedEvent.lt (a b : DecodedEvent) : Prop :=
  a.rawLog.blockNumber < b.rawLog.blockNumber ∨
    (a.rawLog.blockNumber = b.rawLog.blockNumber ∧ a.rawLog.logIndex < b.rawLog.logIndex)

theorem DecodedEvent.le_of_lt {a b : DecodedEvent} (h : a.lt b) : a.le b := by
  rcases h with h | ⟨h, h'⟩
  · exact .inl h
  · exact .inr ⟨h, UInt32.le_of_lt h'⟩

theorem DecodedEvent.not_le_of_lt {a b : DecodedEvent} (h : a.lt b) : ¬b.le a := by
  unfold DecodedEvent.lt at h
  unfold DecodedEvent.le
  simp only [UInt64.lt_iff_toNat_lt, ← UInt64.toNat_inj, UInt32.lt_iff_toNat_lt,
    UInt32.le_iff_toNat_le] at h ⊢
  omega

variable {V : Type}

/-- The unique column sets of a table. -/
def uniquesOf (env : Env V) (table : String) : List (List String) :=
  (env.schema.find table).elim [] TableDef.uniqueSets

/-- The tuples that rows denote in a table; a table that does not exist takes none. -/
def tuplesTo (env : Env V) (table : String) (rows : List Row) : List (Tuple V) :=
  (env.schema.find table).elim [] fun d =>
    rows.map fun r => tupleOf env table d.columnNames (d.columnNames.map r.literal)

theorem tuplesTo_append (env : Env V) (table : String) (rows rows' : List Row) :
    tuplesTo env table (rows ++ rows') = tuplesTo env table rows ++ tuplesTo env table rows' := by
  unfold tuplesTo
  cases env.schema.find table <;> simp

@[simp] theorem tuplesTo_nil (env : Env V) (table : String) : tuplesTo env table [] = [] := by
  unfold tuplesTo
  cases env.schema.find table <;> rfl

/-- The events of a contract from block `lo` to before `hi`. -/
def segment (events : String → List DecodedEvent) (c : ContractConfig) (lo hi : ℕ) :
    List DecodedEvent :=
  (events c.name).filter fun e => lo ≤ e.rawLog.blockNumber.toNat ∧ e.rawLog.blockNumber.toNat < hi

/-- What the events of the blocks from `lo` to before `hi` insert into a table. -/
def considered (env : Env V) (events : String → List DecodedEvent)
    (rows : DecodedEvent → List (String × Row)) (c : ContractConfig) (table : String) (lo hi : ℕ) :
    List (Tuple V) :=
  tuplesTo env table (rowsTo table ((segment events c lo hi).flatMap rows))

namespace BackfillCoordinator

/-- One contract whose events come in the order of the chain. -/
structure OneContract (co : BackfillCoordinator V) (env : Env V) (chainId : UInt64)
    (c : ContractConfig) (events : String → List DecodedEvent)
    (rows : DecodedEvent → List (String × Row)) : Prop
    extends co.InsertHandlers env chainId events rows where
  contracts : co.chainContracts chainId = [c]
  ordered : (events c.name).Pairwise DecodedEvent.lt

end BackfillCoordinator

section Segment

variable {env : Env V} {events : String → List DecodedEvent}
  {rows : DecodedEvent → List (String × Row)} {c : ContractConfig}

theorem mem_segment {lo hi : ℕ} {e : DecodedEvent} : e ∈ segment events c lo hi ↔
    e ∈ events c.name ∧ lo ≤ e.rawLog.blockNumber.toNat ∧ e.rawLog.blockNumber.toNat < hi := by
  simp [segment]

theorem segment_append (hord : (events c.name).Pairwise DecodedEvent.lt) {lo mid hi : ℕ}
    (hlo : lo ≤ mid) (hhi : mid ≤ hi) :
    segment events c lo hi = segment events c lo mid ++ segment events c mid hi := by
  refine filter_interval_append (hord.imp fun {a b} h => ?_) hlo hhi
  rcases h with h | ⟨h, -⟩
  · exact Nat.le_of_lt (UInt64.lt_iff_toNat_lt.mp h)
  · exact Nat.le_of_eq (congrArg UInt64.toNat h)

theorem considered_append (hord : (events c.name).Pairwise DecodedEvent.lt) (table : String)
    {lo mid hi : ℕ} (hlo : lo ≤ mid) (hhi : mid ≤ hi) :
    considered env events rows c table lo hi =
      considered env events rows c table lo mid ++ considered env events rows c table mid hi := by
  unfold considered
  rw [segment_append hord hlo hhi, List.flatMap_append, rowsTo_append, tuplesTo_append]

variable [DecidableEq V]

/-- The table is what inserting the rows of the events before block `q` gives, and these events
have been handed out. -/
structure Upto (env : Env V) (events : String → List DecodedEvent)
    (rows : DecodedEvent → List (String × Row)) (c : ContractConfig) (w₀ w : World V)
    (table : String) (q : ℕ) : Prop where
  table_eq : w.tables table = insertAllNew (conflicts (uniquesOf env table)) (w₀.tables table)
    (considered env events rows c table c.startBlock.toNat q)
  self : ∀ r ∈ considered env events rows c table c.startBlock.toNat q,
    conflicts (uniquesOf env table) r r = true
  handed : ∀ e ∈ segment events c c.startBlock.toNat q, ∃ d ∈ w.dispatched, d.2 = e

variable {w₀ w w' : World V} {table : String} {q : ℕ}

theorem Upto.of_eq (h : Upto env events rows c w₀ w table q)
    (htable : w'.tables table = w.tables table) (hdis : ∀ d ∈ w.dispatched, d ∈ w'.dispatched) :
    Upto env events rows c w₀ w' table q where
  table_eq := htable.trans h.table_eq
  self := h.self
  handed e he := by
    obtain ⟨d, hd, hde⟩ := h.handed e he
    exact ⟨d, hdis d hd, hde⟩

/-- Inserting the rows of a stretch that begins at or before `q` leads up to its end, or leaves
the table as it is when it ends before `q`. -/
theorem Upto.extend (hord : (events c.name).Pairwise DecodedEvent.lt)
    (h : Upto env events rows c w₀ w table q) {a b : ℕ} (hstart : c.startBlock.toNat ≤ a)
    (haq : a ≤ q) (hab : a ≤ b)
    (htable : w'.tables table = insertAllNew (conflicts (uniquesOf env table)) (w.tables table)
      (considered env events rows c table a b))
    (hself : ∀ r ∈ considered env events rows c table a b,
      conflicts (uniquesOf env table) r r = true)
    (hdis : ∀ d ∈ w.dispatched, d ∈ w'.dispatched)
    (hhanded : ∀ e ∈ segment events c a b, ∃ d ∈ w'.dispatched, d.2 = e) :
    Upto env events rows c w₀ w' table (max q b) := by
  by_cases hbq : b ≤ q
  · -- the stretch has been inserted before
    rw [Nat.max_eq_left hbq]
    apply h.of_eq _ hdis
    rw [htable, h.table_eq]
    apply insertAllNew_absorb _ hself
    intro r hr
    rw [considered_append hord table (Nat.le_trans hstart hab) hbq, considered_append hord table
      hstart hab]
    exact List.mem_append_left _ (List.mem_append_right _ hr)
  · have hqb : q ≤ b := by omega
    have hsq : c.startBlock.toNat ≤ q := by omega
    rw [Nat.max_eq_right hqb]
    have hback : ∀ r ∈ considered env events rows c table a q,
        conflicts (uniquesOf env table) r r = true := by
      intro r hr
      apply hself
      rw [considered_append hord table haq hqb]
      exact List.mem_append_left _ hr
    refine ⟨?_, ?_, ?_⟩
    · rw [htable, h.table_eq, considered_append hord table hstart haq,
        considered_append hord table haq hqb, insertAllNew_replay _ _ _ _ hback,
        considered_append hord table hsq hqb, considered_append hord table hstart haq]
    · intro r hr
      rw [considered_append hord table hstart hab] at hr
      rcases List.mem_append.mp hr with hr | hr
      · apply h.self
        rw [considered_append hord table hstart haq]
        exact List.mem_append_left _ hr
      · exact hself r hr
    · intro e he
      rw [segment_append hord hsq hqb] at he
      rcases List.mem_append.mp he with he | he
      · obtain ⟨d, hd, hde⟩ := h.handed e he
        exact ⟨d, hdis d hd, hde⟩
      · apply hhanded
        rw [segment_append hord haq hqb]
        exact List.mem_append_right _ he

end Segment

section FlushInserts

variable [DecidableEq V] {env : Env V}

theorem conflicts_self {d : TableDef} {pk : String} (hpk : d.pk = some pk) {r : Tuple V}
    (hr : (r pk).isSome) : conflicts d.uniqueSets r r = true := by
  refine List.any_eq_true.mpr ⟨[pk], TableDef.pk_mem_uniqueSets hpk, ?_⟩
  simp [agreeOn, hr]

/-- The rows of a table after its part of the flush. -/
def Inserted (env : Env V) (w₁ w : World V) (table : String) (rows : List Row) : Prop :=
  w.tables table = insertAllNew (conflicts (uniquesOf env table)) (w₁.tables table)
      (tuplesTo env table rows) ∧
    ∀ r ∈ tuplesTo env table rows, conflicts (uniquesOf env table) r r = true

/-- `w` comes from `w₁` by flushing the buffers `B` of the tables in `S`. -/
structure Flushed (env : Env V) (B : String → List Row) (w₁ : World V) (S : String → Prop)
    (w : World V) : Prop where
  checkpoints : w.checkpoints = w₁.checkpoints
  dispatched : w.dispatched = w₁.dispatched
  inserted : ∀ t, S t → Inserted env w₁ w t (B t)
  kept : ∀ t, ¬S t → w.tables t = w₁.tables t

/-- The statements of a buffer of inserts put its rows into the table, all or none. -/
theorem executeAll_inserts (hvalid : validateSchema env.schema = []) (table : String)
    {rows : List Row} (hins : ∀ r ∈ rows, r.kind = .insert) (w₁ : World V) :
    Proc.Triple (fun w => w = w₁)
      (WriteBuffer.executeAll env table
        (WriteBuffer.flushStmts (WriteBuffer.new env.schema) table rows))
      (fun _ w => Inserted env w₁ w table rows ∧ ∃ clock tables sent,
        w = { w₁ with clock, tables, sent } ∧ ∀ t, t ≠ table → tables t = w₁.tables t)
      (fun w => ∃ clock, w = { w₁ with clock }) := by
  cases hfind : env.schema.find table with
  | none =>
    rw [WriteBuffer.flushStmts_of_find_none hfind, WriteBuffer.executeAll_nil]
    refine Proc.Triple.pure fun w hw => ⟨?_, _, _, _, hw, fun _ _ => rfl⟩
    unfold Inserted tuplesTo
    rw [hfind, hw]
    exact ⟨rfl, fun r hr => by simp at hr⟩
  | some d =>
    obtain ⟨hd, hname⟩ := mem_of_find hfind
    obtain ⟨pk, hpk⟩ := pk_of_validateSchema hvalid hd
    obtain ⟨hcols, hpkcol⟩ := WriteBuffer.new_of_mem hvalid hd hpk
    subst hname
    by_cases hne : rows = []
    · subst hne
      rw [WriteBuffer.flushStmts_nil, WriteBuffer.executeAll_nil]
      refine Proc.Triple.pure fun w hw => ⟨?_, _, _, _, hw, fun _ _ => rfl⟩
      unfold Inserted
      rw [tuplesTo_nil, hw]
      exact ⟨rfl, fun r hr => by simp at hr⟩
    -- there are inserts only, so the flush is one statement
    have hkinds (k : Row.Kind) (hk : k ≠ .insert) : WriteBuffer.ofKind k rows = [] := by
      unfold WriteBuffer.ofKind
      rw [List.filter_eq_nil_iff]
      intro r hr
      rw [hins r hr, decide_eq_true_eq]
      exact fun h => hk h.symm
    have hstmts : WriteBuffer.flushStmts (WriteBuffer.new env.schema) d.name rows =
        [WriteBuffer.insertStmt d.name d.columnNames rows] := by
      simp [WriteBuffer.flushStmts, WriteBuffer.insertStmts, WriteBuffer.updateStmts,
        WriteBuffer.deleteStmts, hcols, hpkcol, ofKind_of_forall hins, hne, hkinds .update,
        hkinds .delete, WriteBuffer.deleteKeys]
    rw [hstmts, WriteBuffer.executeAll_singleton]
    refine ((execute_cases env _ w₁).conseq (fun _ h => h) (fun _ w h => ?_)
      fun w hw => ⟨_, hw⟩).mapErr
    obtain ⟨table, t, heff, rfl⟩ := h
    obtain ⟨rfl, ht, hkeys⟩ := insertStmt_effect hfind hpk heff
    refine ⟨⟨?_, ?_⟩, _, _, _, rfl, fun t ht => Function.update_of_ne ht _ _⟩
    · dsimp only
      unfold tuplesTo uniquesOf
      rw [Function.update_self, ht, hfind]
      rfl
    · intro r hr
      unfold tuplesTo at hr
      rw [hfind] at hr
      obtain ⟨row, hrow, rfl⟩ := List.mem_map.mp hr
      obtain ⟨k, hk⟩ := hkeys row hrow
      unfold uniquesOf
      rw [hfind]
      apply conflicts_self hpk
      rw [tupleOf_key hpk, hk]
      rfl

theorem Inserted.nil (w : World V) (table : String) : Inserted env w w table [] := by
  unfold Inserted
  rw [tuplesTo_nil]
  exact ⟨rfl, fun r hr => by simp at hr⟩

variable {B : String → List Row} {w₁ w w' : World V} {S : String → Prop}

theorem Flushed.of_eq (h : Flushed env B w₁ S w) (hcp : w'.checkpoints = w.checkpoints)
    (hdis : w'.dispatched = w.dispatched) (htables : w'.tables = w.tables) :
    Flushed env B w₁ S w' where
  checkpoints := hcp.trans h.checkpoints
  dispatched := hdis.trans h.dispatched
  inserted t ht := by
    unfold Inserted
    rw [htables]
    exact h.inserted t ht
  kept t ht := by rw [htables, h.kept t ht]

theorem Flushed.step (h : Flushed env B w₁ S w) {table : String} {rows : List Row}
    (hrows : (S table ∧ rows = []) ∨ (¬S table ∧ rows = B table))
    (hins : Inserted env w w' table rows) (hcp : w'.checkpoints = w.checkpoints)
    (hdis : w'.dispatched = w.dispatched) (hother : ∀ t, t ≠ table → w'.tables t = w.tables t) :
    Flushed env B w₁ (fun t => S t ∨ t = table) w' where
  checkpoints := hcp.trans h.checkpoints
  dispatched := hdis.trans h.dispatched
  inserted t ht := by
    by_cases htt : t = table
    · subst htt
      rcases hrows with ⟨hS, rfl⟩ | ⟨hS, rfl⟩
      · have hsame : w'.tables t = w.tables t := by
          rw [hins.1, tuplesTo_nil]
          rfl
        unfold Inserted
        rw [hsame]
        exact h.inserted t hS
      · unfold Inserted at hins
        rw [h.kept t hS] at hins
        exact hins
    · unfold Inserted
      rw [hother t htt]
      exact h.inserted t (ht.resolve_right htt)
  kept t ht := by
    rw [not_or] at ht
    rw [hother t ht.2, h.kept t ht.1]

theorem flushTable_inserts (hvalid : validateSchema env.schema = []) (table : String)
    {B' : String → List Row} (hins : ∀ r ∈ B' table, r.kind = .insert)
    (hB' : (S table ∧ B' table = []) ∨ (¬S table ∧ B' table = B table)) :
    Proc.Triple (fun w => Holds w B' ∧ Flushed env B w₁ S w)
      (WriteBuffer.flushTable (WriteBuffer.new env.schema) env table)
      (fun _ w => Holds w (Function.update B' table []) ∧
        Flushed env B w₁ (fun t => S t ∨ t = table) w)
      (Flushed env B w₁ S) := by
  have htaken (w : World V) (hw : Holds w B') :
      Holds { w with buffers := w.buffers.insert table [] } (Function.update B' table []) := by
    intro t
    rw [WriteBuffer.rowsOf_insert, Function.update_apply, hw t]
  refine WriteBuffer.flushTable_triple (R := fun rows w => B' table = rows ∧
    Holds w (Function.update B' table []) ∧ Flushed env B w₁ S w) ?_ ?_ ?_ ?_
  · rintro w ⟨hB, hw⟩ hget
    have hnil : B' table = [] := by
      rw [← hB table, WriteBuffer.rowsOf, hget]
      rfl
    rw [hnil] at hB'
    refine ⟨?_, hw.step hB' (Inserted.nil w table) rfl rfl fun _ _ => rfl⟩
    rw [← hnil, Function.update_eq_self]
    exact hB
  · rintro w ⟨hB, hw⟩ hget
    have hnil : B' table = [] := by
      rw [← hB table, WriteBuffer.rowsOf, hget]
      rfl
    rw [hnil] at hB'
    exact ⟨htaken w hB, hw.step hB' (Inserted.nil w table) rfl rfl fun _ _ => rfl⟩
  · rintro w rows ⟨hB, hw⟩ hget
    refine ⟨?_, htaken w hB, hw.of_eq rfl rfl rfl⟩
    rw [← hB table, WriteBuffer.rowsOf, hget]
    rfl
  · rintro rows _ w ⟨hrows, hB, hw⟩
    subst hrows
    refine ((executeAll_inserts hvalid table hins w).conseq (fun _ h => h) (fun _ w' h => ?_)
      fun w' h => ?_) w rfl
    · obtain ⟨hin, clock, tables, sent, rfl, hother⟩ := h
      exact ⟨hB, hw.step hB' hin rfl rfl hother⟩
    · obtain ⟨clock, rfl⟩ := h
      exact hw.of_eq rfl rfl rfl

/-- A flush of inserts that finished has put the rows of every buffer into its table; one that
did not has done so for some of the tables. -/
theorem flushAll_inserts (hvalid : validateSchema env.schema = [])
    (hins : ∀ t, ∀ r ∈ B t, r.kind = .insert) (w₁ : World V) :
    Proc.Triple (fun w => w = w₁ ∧ Holds w B)
      (WriteBuffer.flushAll (WriteBuffer.new env.schema) env)
      (fun _ w => Holds w (fun _ => []) ∧ Flushed env B w₁ (fun _ => True) w)
      (fun w => ∃ S, Flushed env B w₁ S w) := by
  refine (WriteBuffer.flushAll_triple (P := fun w => w = w₁ ∧ Holds w B) (I := fun tables pre w =>
    Holds w (fun t => if t ∈ pre then [] else B t) ∧ (∀ t, t ∉ tables → B t = []) ∧
      Flushed env B w₁ (fun t => t ∈ pre) w) (E := fun w => ∃ S, Flushed env B w₁ S w)
    ?_ ?_).conseq (fun _ h => h) ?_ fun _ h => h
  · intro w ⟨hw, hB⟩
    refine ⟨fun t => by simpa using hB t, fun t ht => ?_, ?_⟩
    · rw [← hB t]
      exact WriteBuffer.rowsOf_of_not_mem_order env ht
    · rw [hw]
      exact ⟨rfl, rfl, fun t ht => by simp at ht, fun t _ => rfl⟩
  · intro tables pre table post _ w ⟨hB, hout, hw⟩
    refine ((flushTable_inserts hvalid table (S := fun t => t ∈ pre) (fun r hr => ?_) ?_).conseq
      (fun _ h => h) (fun _ w' h => ?_) fun _ h => ⟨_, h⟩) w ⟨hB, hw⟩
    · split_ifs at hr
      · simp at hr
      · exact hins table r hr
    · by_cases hpre : table ∈ pre <;> simp [hpre]
    · refine ⟨fun t => ?_, hout, ?_⟩
      · rw [h.1 t, Function.update_apply]
        by_cases ht : t = table <;> simp [ht]
      · have hset : (fun t => t ∈ pre ++ [table]) = fun t => t ∈ pre ∨ t = table := by
          funext t
          simp
        rw [hset]
        exact h.2
  · intro _ w ⟨tables, hB, hout, hw⟩
    refine ⟨fun t => ?_, hw.checkpoints, hw.dispatched, fun t _ => ?_, fun t ht => absurd trivial ht⟩
    · rw [hB t]
      dsimp only
      split_ifs with ht
      · rfl
      · exact hout t ht
    · by_cases ht : t ∈ tables
      · exact hw.inserted t ht
      · unfold Inserted
        rw [hout t ht, tuplesTo_nil, hw.kept t ht]
        exact ⟨rfl, fun r hr => by simp at hr⟩

end FlushInserts

namespace BackfillCoordinator

section Converge

variable {co : BackfillCoordinator V} {env : Env V} {chainId currentBlock : UInt64}
  {c : ContractConfig} {events : String → List DecodedEvent}
  {rows : DecodedEvent → List (String × Row)}

/-- The block from which a run that can read the checkpoint goes on. -/
def resumeAt (chainId : UInt64) (c : ContractConfig) (w : World V) : ℕ :=
  (((w.checkpoints (chainId, c.name)).map Int64.toUInt64).getD c.startBlock).toNat

theorem resumeAt_congr {w w' : World V} (h : w'.checkpoints = w.checkpoints) :
    resumeAt chainId c w' = resumeAt chainId c w := by
  unfold resumeAt
  rw [h]

theorem ordered_antisymm {l : List DecodedEvent} (hl : l.Pairwise DecodedEvent.lt)
    {a b : DecodedEvent} (ha : a ∈ l) (hb : b ∈ l) (hab : a.le b) (hba : b.le a) : a = b := by
  obtain ⟨i, hi, rfl⟩ := List.getElem_of_mem ha
  obtain ⟨j, hj, rfl⟩ := List.getElem_of_mem hb
  rw [List.pairwise_iff_getElem] at hl
  rcases Nat.lt_trichotomy i j with hij | rfl | hij
  · exact absurd hba (DecodedEvent.not_le_of_lt (hl i j hi hj hij))
  · rfl
  · exact absurd hab (DecodedEvent.not_le_of_lt (hl j i hj hi hij))

/-- The sorted batch of a range is the stretch of the chain that the range covers. -/
theorem batch_eq_segment (hback : co.OneContract env chainId c events rows) {w : World V} {n : ℕ}
    {p : BackfillPlan} (hname : p.contractName = c.name)
    (hplans : co.plansFrom env chainId currentBlock w n (co.chainContracts chainId) = .ok [p])
    {i : ℕ} {range : BlockRange} (hrange : p.ranges[i]? = some range) {es : List DecodedEvent}
    (hes : co.fetchAll chainId [p] i = .ok es) :
    es.insertionSort DecodedEvent.le =
      segment events c range.fromBlock.toNat (range.toBlock.toNat + 1) := by
  have hevents : [p].flatMap (rangeEvents events i) =
      segment events c range.fromBlock.toNat (range.toBlock.toNat + 1) := by
    rw [List.flatMap_singleton]
    unfold rangeEvents segment
    rw [hrange, hname]
    apply List.filter_congr
    intro e _
    apply decide_eq_decide.mpr
    unfold BlockRange.Covers
    rw [UInt64.le_iff_toNat_le, UInt64.le_iff_toNat_le, Nat.lt_succ_iff]
  have hperm := mem_batch hback.toInsertHandlers hplans hes
  rw [hevents] at hperm
  have hseg : (segment events c range.fromBlock.toNat (range.toBlock.toNat + 1)).Pairwise
      DecodedEvent.lt := hback.ordered.sublist List.filter_sublist
  refine List.Perm.eq_of_pairwise (fun a b ha hb => ?_) (List.pairwise_insertionSort _ _)
    (hseg.imp DecodedEvent.le_of_lt) hperm
  exact ordered_antisymm hseg (hperm.mem_iff.mp ha) hb

variable [DecidableEq V]

/-- What holds in every world that is reached from `w₀`: each table is up to some block, which
lies neither before `b` nor before the checkpoint. -/
structure Converging (env : Env V) (chainId : UInt64) (c : ContractConfig)
    (events : String → List DecodedEvent) (rows : DecodedEvent → List (String × Row))
    (w₀ : World V) (b : ℕ) (w : World V) : Prop where
  start_le : c.startBlock.toNat ≤ resumeAt chainId c w
  upto : ∀ table, ∃ q, b ≤ q ∧ resumeAt chainId c w ≤ q ∧ Upto env events rows c w₀ w table q

variable {w₀ w w' : World V} {a b : ℕ}

theorem Converging.of_eq (h : Converging env chainId c events rows w₀ b w)
    (hcp : w'.checkpoints = w.checkpoints) (htables : w'.tables = w.tables)
    (hdis : ∀ d ∈ w.dispatched, d ∈ w'.dispatched) :
    Converging env chainId c events rows w₀ b w' := by
  have hresume : resumeAt chainId c w' = resumeAt chainId c w := resumeAt_congr hcp
  refine ⟨by rw [hresume]; exact h.start_le, fun table => ?_⟩
  obtain ⟨q, hb, hq, hupto⟩ := h.upto table
  exact ⟨q, hb, by rw [hresume]; exact hq, hupto.of_eq (congrFun htables table) hdis⟩

theorem Converging.mono (h : Converging env chainId c events rows w₀ b w) (hab : a ≤ b) :
    Converging env chainId c events rows w₀ a w where
  start_le := h.start_le
  upto table := by
    obtain ⟨q, hb, hq, hupto⟩ := h.upto table
    exact ⟨q, by omega, hq, hupto⟩

theorem Converging.flushed (hord : (events c.name).Pairwise DecodedEvent.lt)
    (h : Converging env chainId c events rows w₀ a w) (hstart : c.startBlock.toNat ≤ a)
    (hab : a ≤ b) (hhanded : ∀ e ∈ segment events c a b, ∃ d ∈ w.dispatched, d.2 = e)
    {S : String → Prop}
    (hfl : Flushed env (fun t => rowsTo t ((segment events c a b).flatMap rows)) w S w') :
    Converging env chainId c events rows w₀ a w' ∧
      ((∀ t, S t) → Converging env chainId c events rows w₀ b w') := by
  have hresume : resumeAt chainId c w' = resumeAt chainId c w := resumeAt_congr hfl.checkpoints
  have hupto (t : String) : ∃ q, a ≤ q ∧ resumeAt chainId c w' ≤ q ∧
      Upto env events rows c w₀ w' t q ∧ (S t → b ≤ q) := by
    obtain ⟨q, haq, hq, hu⟩ := h.upto t
    rw [hresume]
    by_cases hS : S t
    · obtain ⟨htable, hself⟩ := hfl.inserted t hS
      refine ⟨max q b, by omega, by omega, ?_, fun _ => Nat.le_max_right q b⟩
      refine hu.extend hord hstart haq hab htable hself (fun d hd => ?_) fun e he => ?_
      · rw [hfl.dispatched]
        exact hd
      · rw [hfl.dispatched]
        exact hhanded e he
    · refine ⟨q, haq, hq, hu.of_eq (hfl.kept t hS) fun d hd => ?_, fun h => absurd h hS⟩
      rw [hfl.dispatched]
      exact hd
  have hsl : c.startBlock.toNat ≤ resumeAt chainId c w' := by rw [hresume]; exact h.start_le
  refine ⟨⟨hsl, fun t => ?_⟩, fun hall => ⟨hsl, fun t => ?_⟩⟩
  · obtain ⟨q, haq, hq, hu, -⟩ := hupto t
    exact ⟨q, haq, hq, hu⟩
  · obtain ⟨q, -, hq, hu, hb⟩ := hupto t
    exact ⟨q, hb (hall t), hq, hu⟩

/-- The checkpoint that is saved stands behind the blocks that have been flushed. -/
theorem saveCheckpoint_converging {p : BackfillPlan} (hname : p.contractName = c.name) {i : ℕ}
    {range : BlockRange} (hrange : p.ranges[i]? = some range)
    (hstart : c.startBlock.toNat ≤ range.toBlock.toNat + 1)
    (hsucc : (range.toBlock + 1).toNat = range.toBlock.toNat + 1) :
    Proc.Triple
      (fun w => Holds w (fun _ => []) ∧
        Converging env chainId c events rows w₀ (range.toBlock.toNat + 1) w)
      (Proc.forEach (saveCheckpoint env chainId i) [p])
      (fun _ w => Holds w (fun _ => []) ∧
        Converging env chainId c events rows w₀ (range.toBlock.toNat + 1) w)
      (fun w => Holds w (fun _ => []) ∧
        Converging env chainId c events rows w₀ (range.toBlock.toNat + 1) w) := by
  rw [Proc.forEach_singleton]
  apply saveCheckpoint_triple
  · exact fun w hw => ⟨hw.1, hw.2.of_eq rfl rfl fun _ hd => hd⟩
  · intro w range' hrange' hw
    rw [hrange] at hrange'
    cases hrange'
    have hresume : resumeAt chainId c { w with
        checkpoints := Function.update w.checkpoints (chainId, p.contractName)
          (some (range.toBlock + 1).toInt64) } = range.toBlock.toNat + 1 := by
      unfold resumeAt
      dsimp only
      rw [hname, Function.update_self, Option.map_some, Option.getD_some,
        UInt64.toUInt64_toInt64, hsucc]
    refine ⟨hw.1, ?_, fun table => ?_⟩
    · rw [hresume]
      omega
    · obtain ⟨q, hb, -, hu⟩ := hw.2.upto table
      refine ⟨q, hb, ?_, hu.of_eq rfl fun _ hd => hd⟩
      rw [hresume]
      exact hb

theorem processRange_converging (hback : co.OneContract env chainId c events rows)
    {n : ℕ} {p : BackfillPlan} (hname : p.contractName = c.name)
    (hplans : co.plansFrom env chainId currentBlock w n (co.chainContracts chainId) = .ok [p])
    {i : ℕ} {range : BlockRange} (hrange : p.ranges[i]? = some range)
    (hstart : c.startBlock.toNat ≤ range.fromBlock.toNat)
    (hle : range.fromBlock.toNat ≤ range.toBlock.toNat)
    (hsucc : (range.toBlock + 1).toNat = range.toBlock.toNat + 1)
    (hfit : ∀ table, (rowsTo table (([p].flatMap (rangeEvents events i)).flatMap rows)).length ≤
      co.writeBuffer.maxSize) :
    Proc.Triple
      (fun w => Holds w (fun _ => []) ∧
        Converging env chainId c events rows w₀ range.fromBlock.toNat w)
      (co.processRange env chainId [p] i)
      (fun _ w => Holds w (fun _ => []) ∧
        Converging env chainId c events rows w₀ (range.toBlock.toNat + 1) w)
      (Converging env chainId c events rows w₀ 0) := by
  refine Proc.Triple.bind (Q := fun es w => co.fetchAll chainId [p] i = .ok es ∧
    Holds w (fun _ => []) ∧ Converging env chainId c events rows w₀ range.fromBlock.toNat w)
    (Proc.Triple.ofExcept (fun es hes w hw => ⟨hes, hw⟩) fun w hw => hw.2.mono (Nat.zero_le _))
    fun es => ?_
  rintro w₁ ⟨hes, hw₁⟩
  have hperm := mem_batch hback.toInsertHandlers hplans hes
  have hbatch := batch_eq_segment hback hname hplans hrange hes
  rw [hbatch] at hperm ⊢
  have hfit' : ∀ table, (rowsTo table ((segment events c range.fromBlock.toNat
      (range.toBlock.toNat + 1)).flatMap rows)).length ≤ co.writeBuffer.maxSize :=
    fun table => (length_rowsTo_perm hperm rows table).trans_le (hfit table)
  have hdispatch := (dispatchAll_holds
    (I := Converging env chainId c events rows w₀ range.fromBlock.toNat) hback.inserts i _ hfit'
    (fun w _ _ hw => hw.of_eq rfl rfl fun _ hd => hd)
    fun w e _ hw => hw.of_eq rfl rfl fun _ hd => List.mem_append_left _ hd).and
      (co.dispatchAll_triple i _ w₁.dispatched)
  have hkind : ∀ t, ∀ r ∈ rowsTo t ((segment events c range.fromBlock.toNat
      (range.toBlock.toNat + 1)).flatMap rows), r.kind = .insert := by
    intro t r hr
    obtain ⟨e, -, hx⟩ := List.mem_flatMap.mp (mem_rowsTo.mp hr)
    have hop : r.operation = none := hback.marked e (t, r) hx
    simp [Row.kind, hop]
  have hstart' : c.startBlock.toNat ≤ range.toBlock.toNat + 1 := by omega
  have hsave := @saveCheckpoint_converging V env chainId c events rows _ w₀ p hname i range hrange
    hstart' hsucc
  refine Proc.Triple.bind (hdispatch.conseq (fun _ h => h) (fun _ _ h => h)
    fun _ h => h.1.mono (Nat.zero_le _)) (fun _ => ?_) w₁ ⟨hw₁, rfl⟩
  rintro w₂ ⟨⟨hholds, hconv⟩, hdis⟩
  have hhanded : ∀ e ∈ segment events c range.fromBlock.toNat (range.toBlock.toNat + 1),
      ∃ d ∈ w₂.dispatched, d.2 = e := by
    intro e he
    refine ⟨(i, e), ?_, rfl⟩
    rw [hdis]
    exact List.mem_append_right _ (List.mem_map_of_mem he)
  have hflush := (flushAll_inserts hback.valid hkind w₂).mapErr (g := SyncError.database)
  rw [← hback.buffer] at hflush
  -- a flush that fails has sent some tables and not the others, which still converges
  refine ((hflush.conseq (fun _ h => h) (fun _ w h => ?_) fun w hw => ?_).bind fun _ =>
    (hsave.conseq (fun _ h => h) (fun _ _ h => h) fun _ h => h.2.mono (Nat.zero_le _)).bind fun _ =>
      Proc.Triple.modify fun w hw => ⟨hw.1, hw.2.of_eq rfl rfl fun _ hd => hd⟩) w₂ ⟨rfl, hholds⟩
  · exact ⟨h.1, (hconv.flushed hback.ordered hstart (by omega) hhanded h.2).2 fun _ => trivial⟩
  · obtain ⟨S, hS⟩ := hw
    exact (hconv.flushed hback.ordered hstart (by omega) hhanded hS).1.mono (Nat.zero_le _)

theorem initProgress_converging {start : ℕ} (plans : List BackfillPlan) : Proc.Triple
    (fun w => Holds w (fun _ => []) ∧ Converging env chainId c events rows w₀ start w)
    (initProgress chainId plans : Proc (World V) SyncError Unit)
    (fun _ w => Holds w (fun _ => []) ∧ Converging env chainId c events rows w₀ start w)
    (Converging env chainId c events rows w₀ 0) := by
  unfold initProgress
  dsimp only
  split_ifs
  · exact Proc.Triple.stop fun _ h => h.2.mono (Nat.zero_le _)
  · exact Proc.Triple.modify fun _ h => ⟨h.1, h.2.of_eq rfl rfl fun _ hd => hd⟩

/-- The range loop: after each round the tables are up to where the ranges that are left begin. -/
theorem processRanges_converging (hback : co.OneContract env chainId c events rows) {n : ℕ}
    {p : BackfillPlan} (hname : p.contractName = c.name)
    (hplans : co.plansFrom env chainId currentBlock w n (co.chainContracts chainId) = .ok [p])
    (hfit : ∀ i table, (rowsTo table (([p].flatMap (rangeEvents events i)).flatMap rows)).length ≤
      co.writeBuffer.maxSize) :
    Proc.Triple
      (fun w => Holds w (fun _ => []) ∧ ∃ b, c.startBlock.toNat ≤ b ∧
        Tiles b currentBlock.toNat (p.ranges.drop ([] : List ℕ).length) ∧
          Converging env chainId c events rows w₀ b w)
      (Proc.forEach (co.processRange env chainId [p]) (List.range (maxRanges [p])))
      (fun _ w => Holds w (fun _ => []) ∧ ∃ b, c.startBlock.toNat ≤ b ∧
        Tiles b currentBlock.toNat (p.ranges.drop (List.range (maxRanges [p])).length) ∧
          Converging env chainId c events rows w₀ b w)
      (Converging env chainId c events rows w₀ 0) := by
  refine Proc.Triple.forEach (I := fun pre w => Holds w (fun _ => []) ∧ ∃ b,
    c.startBlock.toNat ≤ b ∧ Tiles b currentBlock.toNat (p.ranges.drop pre.length) ∧
      Converging env chainId c events rows w₀ b w) fun pre i post hpre => ?_
  have hlen : maxRanges [p] = p.ranges.length := Nat.max_zero _
  have hi : pre.length = i := by rw [eq_range_of_range_eq hpre, List.length_range]
  have hlt : i < p.ranges.length := by
    have hcount := congrArg List.length hpre
    rw [List.length_range, hlen, List.length_append, List.length_cons] at hcount
    omega
  rintro w₂ ⟨hholds, b, hb, htile, hconv⟩
  rw [hi, List.drop_eq_getElem_cons hlt] at htile
  -- the ranges tile, so the next one begins where the tables are
  obtain ⟨hfrom, hle, -, hsucc, htail⟩ := htile
  subst hfrom
  refine ((processRange_converging hback hname hplans (List.getElem?_eq_getElem hlt) hb hle hsucc
    fun table => hfit i table).conseq (fun _ h => h) (fun _ w₃ h => ?_) fun _ h => h)
    w₂ ⟨hholds, hconv⟩
  refine ⟨h.1, _, ?_, ?_, h.2⟩
  · omega
  · rw [List.length_append, List.length_singleton, hi]
    exact htail

/-- A run keeps the tables converging, however it ends; one that returns `Ok` has brought every
table up to the current block. -/
theorem runChain_converging (hback : co.OneContract env chainId c events rows)
    (hbuf : Holds w fun _ => []) (hw : Converging env chainId c events rows w₀ 0 w)
    (hfits : Fits env chainId events rows co currentBlock w) :
    Proc.Triple (fun w' => w' = w) (co.runChain env chainId currentBlock)
      (fun _ => Converging env chainId c events rows w₀ (currentBlock.toNat + 1))
      (Converging env chainId c events rows w₀ 0) := by
  unfold runChain
  rw [if_neg (by rw [hback.contracts]; simp)]
  refine ((co.planAll_triple env chainId currentBlock w).conseq (fun _ h => h) (fun _ _ h => h)
    fun w' hw' => ?_).bind fun plans => ?_
  · obtain ⟨m, rfl⟩ := hw'
    exact hw.of_eq rfl rfl fun _ hd => hd
  intro w₁ ⟨hplans, m, hw₁⟩
  have hone := hplans
  rw [hback.contracts] at hone
  obtain ⟨p, rest, rfl, hp, hrest⟩ := plansFrom_cons hone
  cases hrest
  obtain ⟨hname, htiles⟩ := tiles_of_plan hp
  -- a checkpoint that cannot be read sends the run back to the start block
  obtain ⟨hlo, hhi⟩ : c.startBlock.toNat ≤
      ((checkpointAt env w w.clock chainId c.name).getD c.startBlock).toNat ∧
      ((checkpointAt env w w.clock chainId c.name).getD c.startBlock).toNat ≤
        resumeAt chainId c w := by
    unfold checkpointAt
    split_ifs
    · exact ⟨hw.start_le, le_refl _⟩
    · exact ⟨le_refl _, hw.start_le⟩
  generalize ((checkpointAt env w w.clock chainId c.name).getD c.startBlock).toNat = start at *
  have hbegin : Converging env chainId c events rows w₀ start w := by
    refine ⟨hw.start_le, fun table => ?_⟩
    obtain ⟨q, -, hq, hu⟩ := hw.upto table
    exact ⟨q, by omega, hq, hu⟩
  have hlen : maxRanges [p] = p.ranges.length := Nat.max_zero _
  have hinit := @initProgress_converging V env chainId c events rows _ w₀ start [p]
  refine ((hinit.bind fun _ => (processRanges_converging hback hname hplans fun i table =>
    hfits _ hplans i table).conseq (fun _ h => ⟨h.1, start, hlo, htiles, h.2⟩) (fun _ _ h => h)
      fun _ h => h).conseq (fun _ h => h) (fun _ w₂ h => ?_) fun _ h => h) w₁ ?_
  · obtain ⟨-, b, -, htile, hconv⟩ := h
    rw [List.length_range, hlen, List.drop_length] at htile
    exact hconv.mono htile
  · subst hw₁
    exact ⟨hbuf, hbegin.of_eq rfl rfl fun _ hd => hd⟩

omit [DecidableEq V] in
theorem OneContract.withChunkSizes (hback : co.OneContract env chainId c events rows)
    (sizes : UInt64 → Option UInt64) :
    (co.withChunkSizes sizes).OneContract env chainId c events rows :=
  ⟨hback.toInsertHandlers.withChunkSizes sizes, hback.contracts, hback.ordered⟩

theorem converging_of_untouched (hback : co.OneContract env chainId c events rows)
    (hw₀ : co.Untouched chainId w₀) : Converging env chainId c events rows w₀ 0 w₀ := by
  have hnone : w₀.checkpoints (chainId, c.name) = none :=
    hw₀.checkpoints c (by rw [hback.contracts]; exact List.mem_singleton_self c)
  have hresume : resumeAt chainId c w₀ = c.startBlock.toNat := by
    unfold resumeAt
    rw [hnone]
    rfl
  have hempty : segment events c c.startBlock.toNat c.startBlock.toNat = [] := by
    unfold segment
    rw [List.filter_eq_nil_iff]
    intro e _
    simp only [decide_eq_true_eq]
    omega
  refine ⟨le_of_eq hresume.symm, fun table => ⟨c.startBlock.toNat, Nat.zero_le _,
    le_of_eq hresume, ?_, ?_, ?_⟩⟩
  · unfold considered
    rw [hempty, List.flatMap_nil, rowsTo_nil, tuplesTo_nil]
    rfl
  · unfold considered
    rw [hempty, List.flatMap_nil, rowsTo_nil, tuplesTo_nil]
    intro r hr
    simp at hr
  · rw [hempty]
    intro e he
    simp at he

theorem Restarts.converging (hback : co.OneContract env chainId c events rows)
    (hw₀ : co.Untouched chainId w₀)
    (h : co.Restarts env chainId (Fits env chainId events rows) w₀ w) :
    Holds w (fun _ => []) ∧ Converging env chainId c events rows w₀ 0 w := by
  induction h with
  | start => exact ⟨hw₀.buffers, converging_of_untouched hback hw₀⟩
  | run sizes currentBlock h hfits ih =>
    have hrun := ((runChain_converging (hback.withChunkSizes sizes) ih.1 ih.2 hfits).conseq
      (fun _ h => h) (fun _ _ h => h.mono (Nat.zero_le _)) fun _ h => h).snd rfl
    exact ⟨fun _ => rfl, hrun.of_eq rfl rfl fun _ hd => hd⟩

theorem runChain_bounded (hback : co.OneContract env chainId c events rows)
    (hpast : ∀ d ∈ w.dispatched, d.2.rawLog.blockNumber ≤ currentBlock)
    (h : co.runChain env chainId currentBlock w = (.ok (), w')) :
    ∀ d ∈ w'.dispatched, d.2.rawLog.blockNumber ≤ currentBlock := by
  obtain ⟨plans, hplans, hok, hdone⟩ :=
    (co.runChain_dispatched env chainId currentBlock w).of_ok rfl h
  intro d hd
  rw [hdone] at hd
  rcases List.mem_append.mp hd with hd | hd
  · exact hpast d hd
  · obtain ⟨i, hi, hd⟩ := List.mem_flatMap.mp hd
    obtain ⟨e, he, rfl⟩ := List.mem_map.mp hd
    have hperm := batch_perm hback.exact hplans (hok i (List.mem_range.mp hi))
    obtain ⟨p, hp, hep⟩ := List.mem_flatMap.mp (hperm.mem_iff.mp he)
    obtain ⟨range, hrange, -, hcov⟩ := mem_rangeEvents.mp hep
    obtain ⟨c', -, m, hm⟩ := exists_planAt_of_mem hplans hp
    obtain ⟨-, hhi, -, -⟩ := (tiles_of_plan hm).2.of_getElem? hrange
    exact UInt64.le_trans hcov.2 (UInt64.le_iff_toNat_le.mpr hhi)

/-- Tables that are up to block `h`, with no event handed out behind it, hold exactly the rows of
the events up to `h`. -/
theorem Converging.tables_eq {h : UInt64}
    (hconv : Converging env chainId c events rows w₀ (h.toNat + 1) w)
    (hpast : ∀ d ∈ w.dispatched, d.2.rawLog.blockNumber ≤ h) (table : String) :
    w.tables table = insertAllNew (conflicts (uniquesOf env table)) (w₀.tables table)
      (considered env events rows c table c.startBlock.toNat (h.toNat + 1)) := by
  obtain ⟨q, hq, -, hu⟩ := hconv.upto table
  have hsame : segment events c c.startBlock.toNat q =
      segment events c c.startBlock.toNat (h.toNat + 1) := by
    unfold segment
    apply List.filter_congr
    intro e he
    apply decide_eq_decide.mpr
    constructor
    · intro ⟨hlo, hlt⟩
      obtain ⟨d, hd, hde⟩ := hu.handed e (mem_segment.mpr ⟨he, hlo, hlt⟩)
      have hle := UInt64.le_iff_toNat_le.mp (hpast d hd)
      rw [hde] at hle
      omega
    · omega
  rw [hu.table_eq]
  unfold considered
  rw [hsame]

omit [DecidableEq V] in
theorem considered_congr {env' : Env V} (hschema : env'.schema = env.schema)
    (hvalue : env'.value = env.value) (table : String) (lo hi : ℕ) :
    considered env' events rows c table lo hi = considered env events rows c table lo hi := by
  unfold considered tuplesTo tupleOf
  rw [hschema, hvalue]

/-- Any runs from `w₀`, each stopped anywhere, and then one that completes up to block `h`, with
nothing processed behind `h` before, leave every table as one uninterrupted run up to `h` does. -/
theorem restarts_converge (hback : co.OneContract env chainId c events rows)
    (hw₀ : co.Untouched chainId w₀)
    (hruns : co.Restarts env chainId (Fits env chainId events rows) w₀ w)
    {h : UInt64} (hpast : ∀ d ∈ w.dispatched, d.2.rawLog.blockNumber ≤ h)
    {sizes : UInt64 → Option UInt64}
    (hfits : Fits env chainId events rows (co.withChunkSizes sizes) h w)
    (hok : (co.withChunkSizes sizes).runChain env chainId h w = (.ok (), w'))
    {env₁ : Env V} (hschema : env₁.schema = env.schema) (hvalue : env₁.value = env.value)
    {sizes₁ : UInt64 → Option UInt64} {w₁ : World V}
    (hfits₁ : Fits env₁ chainId events rows (co.withChunkSizes sizes₁) h w₀)
    (hok₁ : (co.withChunkSizes sizes₁).runChain env₁ chainId h w₀ = (.ok (), w₁))
    (table : String) : w'.tables table = w₁.tables table := by
  have hback₁ : co.OneContract env₁ chainId c events rows :=
    ⟨⟨by rw [hschema]; exact hback.valid, by rw [hschema]; exact hback.buffer, hback.exact,
      hback.inserts, hback.marked⟩, hback.contracts, hback.ordered⟩
  have hnow := hruns.converging hback hw₀
  have hlast := (runChain_converging (hback.withChunkSizes sizes) hnow.1 hnow.2 hfits).of_ok rfl hok
  have honce := (runChain_converging (hback₁.withChunkSizes sizes₁) hw₀.buffers
    (converging_of_untouched hback₁ hw₀) hfits₁).of_ok rfl hok₁
  have hpast₁ : ∀ d ∈ w₀.dispatched, d.2.rawLog.blockNumber ≤ h := by
    rw [hw₀.dispatched]
    intro d hd
    simp at hd
  rw [hlast.tables_eq (runChain_bounded (hback.withChunkSizes sizes) hpast hok) table,
    honce.tables_eq (runChain_bounded (hback₁.withChunkSizes sizes₁) hpast₁ hok₁) table,
    considered_congr hschema hvalue]
  unfold uniquesOf
  rw [hschema]

end Converge

/-- A Postgres from which the process is cut off at its third statement. -/
def cutEnv : Env String :=
  { plainEnv ⟨[accountsTable]⟩ with fate := fun n => if n = 2 then .killed else .executed }

theorem oneContract_pair : pairCoordinator.OneContract cutEnv 1 ⟨"A", 0⟩ pairEvents pairRows where
  valid := by decide
  buffer := rfl
  exact := insertBackfill_pair.exact
  inserts := insertBackfill_pair.inserts
  marked := insertBackfill_pair.marked
  contracts := rfl
  ordered := by
    show [transferAt "A" 0 0, transferAt "A" 2 0].Pairwise DecodedEvent.lt
    rw [List.pairwise_pair]
    exact .inl (by decide)

/-- The first run is cut off between its first `INSERT` and the checkpoint; the second takes all
blocks at once. -/
theorem restarts_converge_cut :
    let w := ((pairCoordinator.withChunkSizes fun _ => some 1).runChain cutEnv 1 2
      (World.fresh String)).2.restart
    let w' := ((pairCoordinator.withChunkSizes fun _ => some 3).runChain cutEnv 1 2 w).2
    let w₁ := ((pairCoordinator.withChunkSizes fun _ => some 2).runChain
      (plainEnv ⟨[accountsTable]⟩) 1 2 (World.fresh String)).2
    w.checkpoints (1, "A") = none ∧ (w.tables "accounts").length = 1 ∧
      ∀ table, w'.tables table = w₁.tables table := by
  intro w w' w₁
  have hcp : w.checkpoints (1, "A") = none := by decide +kernel
  have hrows : (w.tables "accounts").length = 1 := by decide +kernel
  have hpast : ∀ d ∈ w.dispatched, d.2.rawLog.blockNumber ≤ 2 := by decide +kernel
  have hok : (pairCoordinator.withChunkSizes fun _ => some 3).runChain cutEnv 1 2 w = (.ok (), w') :=
    Proc.eq_ok_of_fst (by decide +kernel)
  have hok₁ : (pairCoordinator.withChunkSizes fun _ => some 2).runChain
      (plainEnv ⟨[accountsTable]⟩) 1 2 (World.fresh String) = (.ok (), w₁) :=
    Proc.eq_ok_of_fst (by decide +kernel)
  have hruns : pairCoordinator.Restarts cutEnv 1 (Fits cutEnv 1 pairEvents pairRows)
      (World.fresh String) w :=
    Restarts.run (fun _ => some 1) 2 Restarts.start (fits_pair _ _ _ _)
  have hfresh : pairCoordinator.Untouched 1 (World.fresh String) :=
    ⟨fun _ => rfl, rfl, fun _ _ => rfl⟩
  have hschema : (plainEnv ⟨[accountsTable]⟩).schema = cutEnv.schema := rfl
  have hvalue : (plainEnv ⟨[accountsTable]⟩).value = cutEnv.value := rfl
  clear_value w₁ w' w
  refine ⟨hcp, hrows, fun table => ?_⟩
  exact restarts_converge oneContract_pair hfresh hruns hpast (fits_pair _ _ _ _) hok hschema hvalue
    (fits_pair _ _ _ _) hok₁ table

/-- `Ping()` in a block. -/
def pingAt (blockNumber : UInt64) : Log :=
  { BackfillWorker.pingLog with
    id := logId Hash32.zero.display 0
    blockNumber := blockNumber }

/-- A chain that calls `Ping()` in its first and in its third block. -/
def pingChain : Chain where
  chainId := 1
  logs := [pingAt 0, pingAt 2]
  ordered := by decide
  id_eq := by decide +kernel
  chainId_eq := by decide
  block_lt := by decide
  index_lt := by decide

/-- The cached client of the pool, whose statements are all executed. -/
def pingLogs (f : LogFilter) : Proc RpcCache String (List Log) :=
  CachedRpcClient.getLogs keccakOfZeros (fun _ => .executed) (fun f => .ok (pingChain.answer f)) 1 f

def pingWorker : BackfillWorker Unit :=
  .ofAbi () BackfillWorker.pingAbi (BackfillWorker.pingContract (.single Address.zero)) 1

/-- The worker of the pool over that client. -/
def pingFetch : BlockRange → Proc RpcCache SyncError (List DecodedEvent) :=
  pingWorker.fetchRange fun _ => pingLogs

theorem pingFetch_of_logs {range : BlockRange} {s : RpcCache} {logs : List Log}
    {events : List DecodedEvent} (hlogs : (pingLogs (pingWorker.filter range) s).1 = .ok logs)
    (hevents : pingWorker.decodeLogs logs = .ok events) :
    pingFetch range s =
      (.ok (events.insertionSort DecodedEvent.le), (pingLogs (pingWorker.filter range) s).2) := by
  refine Proc.bind_ok_iff.mpr ⟨logs, _, Proc.mapErr_ok_iff.mpr (Proc.eq_ok_of_fst hlogs), ?_⟩
  rw [hevents]
  rfl

/-- A run of the pool in one range, for which the worker has answered with these events. -/
def pingCoordinator (events : List DecodedEvent) : BackfillCoordinator String :=
  { listCoordinator String ⟨[accountsTable]⟩ [⟨"Pool", 0⟩] (fun _ => []) 3 with
    workers := fun _ => some fun _ => .ok events
    dbHandlers := fun _ => some (insertHandler (WriteBuffer.new ⟨[accountsTable]⟩) pairRows) }

/-- A Postgres from which the process is cut off at the `INSERT` of its first and of its second
run. -/
def twiceCutEnv : Env String :=
  { plainEnv ⟨[accountsTable]⟩ with fate := fun n => if n = 1 ∨ n = 3 then .killed else .executed }

/-- A run to block 1 and one to block 2 are stopped before their `INSERT`.  The log cache has then
the log of block 0 under the first range only, so the third run is told of one event, returns `Ok`
and leaves a row less than an uninterrupted run. -/
theorem restarts_not_converge :
    ∃ e₁ e₂ e₃ e s₁ s₂ s₃ s, pingFetch ⟨0, 1⟩ RpcCache.empty = (.ok e₁, s₁) ∧
      pingFetch ⟨0, 2⟩ s₁ = (.ok e₂, s₂) ∧ pingFetch ⟨0, 2⟩ s₂ = (.ok e₃, s₃) ∧
      pingFetch ⟨0, 2⟩ RpcCache.empty = (.ok e, s) ∧
      let w₁ := ((pingCoordinator e₁).runChain twiceCutEnv 1 1 (World.fresh String)).2.restart
      let w₂ := ((pingCoordinator e₂).runChain twiceCutEnv 1 2 w₁).2.restart
      let last := (pingCoordinator e₃).runChain twiceCutEnv 1 2 w₂
      let once := (pingCoordinator e).runChain (plainEnv ⟨[accountsTable]⟩) 1 2 (World.fresh String)
      last.1 = .ok () ∧ once.1 = .ok () ∧ last.2.tables "accounts" ≠ once.2.tables "accounts" := by
  have hlogs₁ : (pingLogs (pingWorker.filter ⟨0, 1⟩) RpcCache.empty).1 = .ok [pingAt 0] := by
    decide +kernel
  have hlogs₂ : (pingLogs (pingWorker.filter ⟨0, 2⟩)
      (pingLogs (pingWorker.filter ⟨0, 1⟩) RpcCache.empty).2).1 = .ok [pingAt 0, pingAt 2] := by
    decide +kernel
  have hlogs₃ : (pingLogs (pingWorker.filter ⟨0, 2⟩) (pingLogs (pingWorker.filter ⟨0, 2⟩)
      (pingLogs (pingWorker.filter ⟨0, 1⟩) RpcCache.empty).2).2).1 = .ok [pingAt 2] := by
    decide +kernel
  have hlogs : (pingLogs (pingWorker.filter ⟨0, 2⟩) RpcCache.empty).1 =
      .ok [pingAt 0, pingAt 2] := by
    decide +kernel
  refine ⟨_, _, _, _, _, _, _, _, pingFetch_of_logs hlogs₁ rfl, pingFetch_of_logs hlogs₂ rfl,
    pingFetch_of_logs hlogs₃ rfl, pingFetch_of_logs hlogs rfl, ?_⟩
  intro w₁ w₂ last once
  have hlast : (last.2.tables "accounts").length = 1 := by decide +kernel
  have honce : (once.2.tables "accounts").length = 2 := by decide +kernel
  refine ⟨by decide +kernel, by decide +kernel, fun hsame => ?_⟩
  rw [hsame, honce] at hlast
  exact absurd hlast (by decide)

end BackfillCoordinator

end ForgeIndex
