import ForgeIndex.Rpc.Transparency

/-!
# Entries of the log cache

An entry is the set of rows under the columns of a filter.  It is written row by row outside a
transaction, a lookup takes any row for a whole entry, and the marker of an empty answer has one
primary key for all filters of a chain.
-/

namespace ForgeIndex

section Rows

variable {keccak256 : Bytes → Hash32}

/-- A log goes through its row unchanged. -/
theorem cached_log_decodes (keccak256 : Bytes → Hash32) (chainId : UInt64) (f : LogFilter) (l : Log)
    (hid : l.id = logId l.blockHash.display l.logIndex.toNat) (hchain : l.chainId = chainId)
    (hblock : l.blockNumber.toNat < 2 ^ 63) (hindex : l.logIndex.toNat < 2 ^ 31) :
    let r := logRow keccak256 (filterColumns keccak256 chainId f) l
    r.intoLog chainId = l ∧ r.blockNumber.toInt = l.blockNumber.toNat ∧
      r.logIndex.toInt = l.logIndex.toNat := by
  subst hchain
  exact ⟨intoLog_logRow _ hid hindex, toInt_toInt64 hblock, toInt_toInt32 hindex⟩

/-- The first log of block 7. -/
theorem cached_log_decodes_seven :
    let r := logRow keccakOfZeros (filterColumns keccakOfZeros 1 (blocksFilter 0 10)) (firstLogOf 7)
    r.intoLog 1 = firstLogOf 7 ∧ r.blockNumber.toInt = (firstLogOf 7).blockNumber.toNat ∧
      r.logIndex.toInt = (firstLogOf 7).logIndex.toNat :=
  cached_log_decodes keccakOfZeros 1 (blocksFilter 0 10) (firstLogOf 7) rfl rfl (by decide)
    (by decide)

end Rows

section Insertions

variable {fate : ℕ → Fate}

theorem sendCache_ok {w w' : RpcCache} (h : sendCache fate w = (.ok (), w')) :
    fate w.clock = .executed ∧ w' = { w with clock := w.clock + 1 } := by
  unfold sendCache at h
  rcases hw : fate w.clock with _ | _ | _ <;> rw [hw] at h <;> cases h
  exact ⟨rfl, rfl⟩

theorem sendCache_of_executed {w : RpcCache} (h : fate w.clock = .executed) :
    sendCache fate w = (.ok (), { w with clock := w.clock + 1 }) := by
  unfold sendCache
  rw [h]

theorem foldl_addRow (rows rs : List LogRow) :
    ∃ added, added.Sublist rs ∧ rs.foldl addRow rows = rows ++ added := by
  induction rs generalizing rows with
  | nil => exact ⟨[], List.Sublist.refl _, (List.append_nil rows).symm⟩
  | cons r rs ih =>
    obtain ⟨added, hsub, heq⟩ := ih (addRow rows r)
    rw [List.foldl_cons, heq]
    unfold addRow
    split_ifs
    · exact ⟨added, hsub.cons r, rfl⟩
    · exact ⟨r :: added, hsub.cons_cons r, by rw [List.append_assoc, List.singleton_append]⟩

theorem addRow_of_fresh {rows : List LogRow} {r : LogRow} (h : ∀ s ∈ rows, s.key ≠ r.key) :
    addRow rows r = rows ++ [r] := by
  unfold addRow
  apply if_neg
  rw [List.any_eq_true]
  intro ⟨s, hs, hkey⟩
  exact h s hs (of_decide_eq_true hkey)

/-- An interrupted loop has inserted the rows before one whose statement was not executed. -/
theorem insertLogRows_interrupted {rs : List LogRow} {w w' : RpcCache} {out : Ended SqlxError Unit}
    (hrun : Proc.forEach (insertLogRow fate) rs w = (out, w')) (hout : out ≠ .ok ()) :
    ∃ pre r post, rs = pre ++ r :: post ∧ w'.logs = pre.foldl addRow w.logs ∧
      (pre = [] ↔ fate w.clock ≠ .executed) := by
  induction rs generalizing w with
  | nil =>
    cases hrun
    exact absurd rfl hout
  | cons r rs ih =>
    by_cases hfate : fate w.clock = .executed
    · have hfirst : insertLogRow fate r w =
          (.ok (), { w with clock := w.clock + 1, logs := addRow w.logs r }) :=
        Proc.bind_of_ok (sendCache_of_executed hfate)
      rw [Proc.forEach_cons, Proc.bind_of_ok hfirst] at hrun
      obtain ⟨pre, r', post, hsplit, hlogs, -⟩ := ih hrun
      refine ⟨r :: pre, r', post, by rw [hsplit]; rfl, hlogs, ?_⟩
      exact iff_of_false (List.cons_ne_nil r pre) (not_not_intro hfate)
    · refine ⟨[], r, rs, rfl, ?_, iff_of_true rfl hfate⟩
      -- the first statement ends the loop and leaves the table alone
      have hstate : (Proc.forEach (insertLogRow fate) (r :: rs) w).2 =
          { w with clock := w.clock + 1 } := by
        rw [Proc.forEach_cons]
        change (Proc.bind (Proc.bind (sendCache fate) _) _ w).2 = _
        unfold Proc.bind sendCache
        rcases hw : fate w.clock with _ | _ | _
        · exact absurd hw hfate
        · rfl
        · rfl
      rw [hrun] at hstate
      have hlogs := congrArg RpcCache.logs hstate
      exact hlogs

end Insertions

section Interrupted

variable {keccak256 : Bytes → Hash32} {chainId : UInt64} {f : LogFilter} {fate : ℕ → Fate}

theorem storeGetLogs_ok {w w' : RpcCache} {ans : Option (List Log)}
    (h : RpcCacheStore.getLogs keccak256 fate chainId f w = (.ok ans, w')) :
    ans = served keccak256 chainId f w.logs := by
  obtain ⟨_, w₁, hsend, h⟩ := Proc.bind_ok_iff.mp h
  have hw₁ := (sendCache_ok hsend).2
  subst hw₁
  obtain ⟨_, _, hget, h⟩ := Proc.bind_ok_iff.mp h
  cases hget
  unfold served
  split_ifs at h ⊢ with hempty
  · cases h
    rfl
  · obtain ⟨_, w₂, hsend', h⟩ := Proc.bind_ok_iff.mp h
    have hw₂ := (sendCache_ok hsend').2
    subst hw₂
    obtain ⟨_, _, hget', h⟩ := Proc.bind_ok_iff.mp h
    cases hget'
    cases h
    rfl

theorem length_served {rows : List LogRow} {logs : List Log}
    (h : served keccak256 chainId f rows = some logs) :
    logs.length = (rowsFor (filterColumns keccak256 chainId f) rows).length := by
  unfold served at h
  split_ifs at h with hempty
  rw [← Option.some.inj h, List.length_map, List.length_insertionSort]

theorem rowsFor_of_other_chain {rows : List LogRow}
    (h : ∀ r ∈ rows, r.filter.chainId ≠ chainId.toInt64) :
    rowsFor (filterColumns keccak256 chainId f) rows = [] := by
  unfold rowsFor
  rw [List.filter_eq_nil_iff]
  intro r hr hfilter
  apply h r hr
  rw [of_decide_eq_true hfilter]
  rfl

/-- The rows of an interrupted answer: at least one, if the first statement was executed, and
fewer than there are logs. -/
theorem length_rowsFor_interrupted {w w' : RpcCache} {out : Ended SqlxError Unit} {logs : List Log}
    (hne : logs ≠ []) (hclean : ∀ r ∈ w.logs, r.filter.chainId ≠ chainId.toInt64)
    (hrun : RpcCacheStore.putLogs keccak256 fate chainId f logs w = (out, w'))
    (hout : out ≠ .ok ()) :
    let n := (rowsFor (filterColumns keccak256 chainId f) w'.logs).length
    n < logs.length ∧ (n = 0 ↔ fate w.clock ≠ .executed) := by
  rw [putLogs_eq] at hrun
  obtain ⟨pre, r, post, hsplit, hlogs, hpre⟩ := insertLogRows_interrupted hrun hout
  have hitems : itemsOf logs = logs.map some := if_neg (mt List.isEmpty_iff.mp hne)
  have hlen := congrArg List.length hsplit
  rw [List.length_map, hitems, List.length_map, List.length_append, List.length_cons] at hlen
  have hcolumns : ∀ s ∈ pre, s.filter = filterColumns keccak256 chainId f := by
    intro s hs
    have hmem : s ∈ (itemsOf logs).map (rowOf keccak256 (filterColumns keccak256 chainId f)) := by
      rw [hsplit]
      exact List.mem_append_left _ hs
    obtain ⟨x, -, hx⟩ := List.mem_map.mp hmem
    rw [← hx, filter_rowOf]
  have hnone : rowsFor (filterColumns keccak256 chainId f) w.logs = [] :=
    rowsFor_of_other_chain hclean
  cases pre with
  | nil =>
    rw [hlogs, List.foldl_nil, hnone]
    exact ⟨by rw [List.length_nil]; omega, iff_of_true rfl (hpre.mp rfl)⟩
  | cons s pre =>
    have hs := hcolumns s List.mem_cons_self
    have hfresh : ∀ t ∈ w.logs, t.key ≠ s.key := by
      intro t ht hkey
      apply hclean t ht
      have hchain := congrArg Prod.fst hkey
      rw [LogRow.key, LogRow.key, hs] at hchain
      exact hchain
    obtain ⟨added, hsub, heq⟩ := foldl_addRow (w.logs ++ [s]) pre
    have hrows : rowsFor (filterColumns keccak256 chainId f) w'.logs = s :: added := by
      rw [hlogs, List.foldl_cons, addRow_of_fresh hfresh, heq, List.append_assoc]
      unfold rowsFor at hnone ⊢
      rw [List.filter_append, hnone, List.nil_append, List.singleton_append, List.filter_eq_self]
      intro t ht
      rw [decide_eq_true_eq]
      apply hcolumns t
      rcases List.mem_cons.mp ht with heq | ht
      · exact List.mem_cons.mpr (.inl heq)
      · exact List.mem_cons_of_mem s (hsub.subset ht)
    have hadded := hsub.length_le
    rw [hrows, List.length_cons]
    rw [List.length_cons] at hlen
    refine ⟨by omega, iff_of_false (by omega) fun hfate => ?_⟩
    exact List.cons_ne_nil s pre (hpre.mpr hfate)

/-- An interrupted answer is hidden from later lookups, or shown whole, exactly when its very first
row was not written. -/
theorem interrupted_entry_whole_iff {w w' : RpcCache} {out : Ended SqlxError Unit} {logs : List Log}
    (hne : logs ≠ []) (hclean : ∀ r ∈ w.logs, r.filter.chainId ≠ chainId.toInt64)
    (hrun : RpcCacheStore.putLogs keccak256 fate chainId f logs w = (out, w'))
    (hout : out ≠ .ok ()) :
    (∀ (fate' : ℕ → Fate) (v v' : RpcCache) (ans : Option (List Log)), v.logs = w'.logs →
        RpcCacheStore.getLogs keccak256 fate' chainId f v = (.ok ans, v') →
          ans = none ∨ ans = some logs) ↔ fate w.clock ≠ .executed := by
  obtain ⟨hlt, hzero⟩ := length_rowsFor_interrupted hne hclean hrun hout
  rw [← hzero]
  constructor
  · intro hall
    by_contra hpos
    obtain ⟨clock, hget⟩ := storeGetLogs_executed keccak256 chainId (fun _ => rfl) f w'
    rcases hall _ w' _ _ rfl hget with h | h
    · unfold served at h
      rw [if_neg hpos] at h
      cases h
    · have hlen := length_served h
      omega
  · intro hempty fate' v v' ans hv hget
    left
    rw [storeGetLogs_ok hget, hv]
    exact if_pos hempty

end Interrupted

/-- The first statement is executed and the process ends at the second. -/
def onlyFirst (n : ℕ) : Fate := if n = 0 then .executed else .killed

/-- The logs of blocks 3 and 7. -/
def twoLogs : List Log := [firstLogOf 3, firstLogOf 7]

theorem twoLogs_interrupted :
    (RpcCacheStore.putLogs keccakOfZeros onlyFirst 1 (blocksFilter 0 10) twoLogs
      RpcCache.empty).1 = .stopped := by decide +kernel

theorem interrupted_entry_whole_iff_second :
    ¬∀ (fate' : ℕ → Fate) (v v' : RpcCache) (ans : Option (List Log)),
      v.logs = (RpcCacheStore.putLogs keccakOfZeros onlyFirst 1 (blocksFilter 0 10) twoLogs
        RpcCache.empty).2.logs →
      RpcCacheStore.getLogs keccakOfZeros fate' 1 (blocksFilter 0 10) v = (.ok ans, v') →
        ans = none ∨ ans = some twoLogs := by
  have hrun := Prod.ext twoLogs_interrupted rfl
  intro hall
  exact (interrupted_entry_whole_iff (List.cons_ne_nil _ _) (fun _ hr => absurd hr List.not_mem_nil) hrun
    (fun h => nomatch h)).mp hall rfl

/-- After a stop between two rows a lookup returns the first log alone. -/
theorem partial_entry_is_served :
    ¬∀ (f : LogFilter) (logs : List Log) (fate fate' : ℕ → Fate) (w w' v v' : RpcCache)
      (out : Ended SqlxError Unit) (ans : Option (List Log)), logs ≠ [] →
      (∀ r ∈ w.logs, r.filter.chainId ≠ (1 : UInt64).toInt64) →
      RpcCacheStore.putLogs keccakOfZeros fate 1 f logs w = (out, w') → out ≠ .ok () →
      v.logs = w'.logs → RpcCacheStore.getLogs keccakOfZeros fate' 1 f v = (.ok ans, v') →
        ans = none ∨ ans = some logs := by
  intro h
  have hread : (RpcCacheStore.getLogs keccakOfZeros (fun _ => .executed) 1 (blocksFilter 0 10)
      (RpcCacheStore.putLogs keccakOfZeros onlyFirst 1 (blocksFilter 0 10) twoLogs
        RpcCache.empty).2).1 = .ok (some [firstLogOf 3]) := by decide +kernel
  have hans := h (blocksFilter 0 10) twoLogs onlyFirst (fun _ => .executed) RpcCache.empty _ _ _
    .stopped (some [firstLogOf 3]) (List.cons_ne_nil _ _) (fun _ hr => absurd hr List.not_mem_nil)
    (Prod.ext twoLogs_interrupted rfl) (fun h => nomatch h) rfl (Prod.ext hread rfl)
  revert hans
  decide

section Empty

variable {keccak256 : Bytes → Hash32} {chainId : UInt64} {f : LogFilter} {fate : ℕ → Fate}

/-- The counters stand at these values. -/
def Counts (hits misses : UInt64) (w : RpcCache) : Prop := w.hits = hits ∧ w.misses = misses

theorem sendCache_counts (hits misses : UInt64) :
    Proc.Triple (Counts hits misses) (sendCache fate) (fun _ => Counts hits misses)
      (Counts hits misses) := by
  intro w hw
  unfold sendCache
  rcases fate w.clock with _ | _ | _ <;> exact hw

theorem putLogs_counts (hits misses : UInt64) (logs : List Log) :
    Proc.Triple (Counts hits misses) (RpcCacheStore.putLogs keccak256 fate chainId f logs)
      (fun _ => Counts hits misses) (Counts hits misses) := by
  rw [putLogs_eq]
  refine Proc.Triple.forEach (I := fun _ => Counts hits misses) fun _ r _ _ => ?_
  exact (sendCache_counts hits misses).bind fun _ => Proc.Triple.modify fun _ hw => hw

theorem storeGetLogs_counts (hits misses : UInt64) :
    Proc.Triple (Counts hits misses) (RpcCacheStore.getLogs keccak256 fate chainId f)
      (fun _ => Counts hits misses) (Counts hits misses) := by
  refine (sendCache_counts hits misses).bind fun _ => ?_
  refine Proc.Triple.bind (Q := fun _ => Counts hits misses) (fun _ hw => hw) fun w => ?_
  split_ifs
  · exact Proc.Triple.pure fun _ hw => hw
  · refine (sendCache_counts hits misses).bind fun _ => ?_
    exact Proc.Triple.bind (Q := fun _ => Counts hits misses) (fun _ hw => hw)
      fun w => Proc.Triple.pure fun _ hw => hw

/-- A lookup finds an entry when both of its statements are executed and there are rows. -/
theorem storeGetLogs_some_iff {w : RpcCache} {logs : List Log} :
    (∃ w', RpcCacheStore.getLogs keccak256 fate chainId f w = (.ok (some logs), w')) ↔
      fate w.clock = .executed ∧ fate (w.clock + 1) = .executed ∧
        served keccak256 chainId f w.logs = some logs := by
  constructor
  · intro ⟨w', h⟩
    have hserved := (storeGetLogs_ok h).symm
    obtain ⟨_, w₁, hsend, h⟩ := Proc.bind_ok_iff.mp h
    obtain ⟨hfirst, hw₁⟩ := sendCache_ok hsend
    subst hw₁
    obtain ⟨_, _, hget, h⟩ := Proc.bind_ok_iff.mp h
    cases hget
    split_ifs at h with hempty
    · cases h
    · obtain ⟨_, _, hsend', -⟩ := Proc.bind_ok_iff.mp h
      exact ⟨hfirst, (sendCache_ok hsend').1, hserved⟩
  · intro ⟨hfirst, hsecond, hserved⟩
    unfold served at hserved
    split_ifs at hserved with hempty
    refine ⟨{ w with clock := w.clock + 2 }, ?_⟩
    refine Proc.bind_ok_iff.mpr ⟨_, _, sendCache_of_executed hfirst, ?_⟩
    refine Proc.bind_ok_iff.mpr ⟨_, _, rfl, ?_⟩
    rw [if_neg hempty]
    refine Proc.bind_ok_iff.mpr ⟨_, _, sendCache_of_executed hsecond, ?_⟩
    rw [← hserved]
    rfl

/-- A call answers from the cache, with no logs. -/
structure RemembersEmpty {ε : Type} (keccak256 : Bytes → Hash32) (fate : ℕ → Fate)
    (inner : LogFilter → Except ε (List Log)) (chainId : UInt64) (f : LogFilter) (w : RpcCache) :
    Prop where
  answer : (CachedRpcClient.getLogs keccak256 fate inner chainId f w).1 = .ok []
  hits : (CachedRpcClient.getLogs keccak256 fate inner chainId f w).2.hits = w.hits + 1
  misses : (CachedRpcClient.getLogs keccak256 fate inner chainId f w).2.misses = w.misses

theorem misses_of_miss {ε : Type} {inner : LogFilter → Except ε (List Log)} {w w' : RpcCache}
    {x : Except SqlxError (Option (List Log))}
    (h : (Proc.attempt (RpcCacheStore.getLogs keccak256 fate chainId f) : Proc RpcCache ε _) w =
      (.ok x, w')) (hx : ∀ logs, x ≠ .ok (some logs)) :
    (CachedRpcClient.getLogs keccak256 fate inner chainId f w).2.misses ≠ w.misses := by
  have hcounts : Counts w.hits w.misses w' := by
    have hsnd : ((Proc.attempt (RpcCacheStore.getLogs keccak256 fate chainId f) :
        Proc RpcCache ε _) w).2 = (RpcCacheStore.getLogs keccak256 fate chainId f w).2 := by
      unfold Proc.attempt
      rcases RpcCacheStore.getLogs keccak256 fate chainId f w with ⟨a | e | _, v⟩ <;> rfl
    rw [h] at hsnd
    rw [show w' = _ from hsnd]
    exact (storeGetLogs_counts w.hits w.misses).snd ⟨rfl, rfl⟩
  have hmiss : Proc.Triple (Counts w.hits w.misses)
      (do
        Proc.modify fun w : RpcCache => { w with misses := w.misses + 1 }
        let logs ← Proc.ofExcept (inner f)
        Proc.ignore (RpcCacheStore.putLogs keccak256 fate chainId f logs)
        pure logs)
      (fun _ => Counts w.hits (w.misses + 1)) (Counts w.hits (w.misses + 1)) := by
    refine Proc.Triple.bind (Q := fun _ => Counts w.hits (w.misses + 1))
      (Proc.Triple.modify fun v hv => ⟨hv.1, by rw [hv.2]⟩) fun _ => ?_
    refine Proc.Triple.bind (Q := fun _ => Counts w.hits (w.misses + 1))
      (Proc.Triple.ofExcept (fun _ _ _ hv => hv) fun _ hv => hv) fun logs => ?_
    exact (Proc.Triple.ignore_invariant (putLogs_counts _ _ logs)).bind
      fun _ => Proc.Triple.pure fun _ hv => hv
  have hcall : CachedRpcClient.getLogs keccak256 fate inner chainId f w = _ := Proc.bind_of_ok h
  have hend : (CachedRpcClient.getLogs keccak256 fate inner chainId f w).2.misses =
      w.misses + 1 := by
    rw [hcall]
    cases x with
    | error e => exact (hmiss.snd hcounts).2
    | ok ans =>
      cases ans with
      | none => exact (hmiss.snd hcounts).2
      | some logs => exact absurd rfl (hx logs)
  rw [hend]
  intro heq
  have hnat := congrArg UInt64.toNat heq
  rw [UInt64.toNat_add] at hnat
  have hone : (1 : UInt64).toNat = 1 := rfl
  have hlt := w.misses.toNat_lt
  omega

theorem remembersEmpty_iff {ε : Type} {inner : LogFilter → Except ε (List Log)} {w : RpcCache} :
    RemembersEmpty keccak256 fate inner chainId f w ↔
      ∃ logs, (∃ w', RpcCacheStore.getLogs keccak256 fate chainId f w = (.ok (some logs), w')) ∧
        logs.filter (fun l => l.logIndex ≠ 4294967295) = [] := by
  have hcounts : Counts w.hits w.misses (RpcCacheStore.getLogs keccak256 fate chainId f w).2 :=
    (storeGetLogs_counts w.hits w.misses).snd ⟨rfl, rfl⟩
  constructor
  · intro h
    rcases hget : RpcCacheStore.getLogs keccak256 fate chainId f w with ⟨⟨ans⟩ | e | _, w'⟩
    · cases ans with
      | none => exact absurd h.misses (misses_of_miss (Proc.attempt_of_ok hget) nofun)
      | some logs =>
        refine ⟨logs, ⟨w', rfl⟩, ?_⟩
        have hcall : (CachedRpcClient.getLogs keccak256 fate inner chainId f w).1 =
            .ok (logs.filter fun l => l.logIndex ≠ 4294967295) := by
          have hstep : CachedRpcClient.getLogs keccak256 fate inner chainId f w = _ :=
            Proc.bind_of_ok (Proc.attempt_of_ok hget)
          rw [hstep]
          rfl
        exact Ended.ok.inj (hcall.symm.trans h.answer)
    · exact absurd h.misses (misses_of_miss (Proc.attempt_of_err hget) nofun)
    · have hstop : (CachedRpcClient.getLogs keccak256 fate inner chainId f w).1 = .stopped := by
        change (Proc.bind (Proc.attempt _) _ w).1 = _
        unfold Proc.bind Proc.attempt
        rw [hget]
      exact absurd (hstop.symm.trans h.answer) nofun
  · intro ⟨logs, ⟨w', hget⟩, hnone⟩
    rw [hget] at hcounts
    have hcall : CachedRpcClient.getLogs keccak256 fate inner chainId f w =
        (.ok [], { w' with hits := w'.hits + 1 }) := by
      refine Proc.bind_ok_iff.mpr ⟨_, _, Proc.attempt_of_ok hget, ?_⟩
      refine Proc.bind_ok_iff.mpr ⟨(), _, rfl, ?_⟩
      rw [← hnone]
      rfl
    exact ⟨by rw [hcall], by rw [hcall, ← hcounts.1], by rw [hcall, ← hcounts.2]⟩

theorem toUInt32_eq_max_iff (i : Int32) : i.toUInt32 = 4294967295 ↔ i = -1 := by
  constructor
  · intro h
    have hback := congrArg UInt32.toInt32 h
    rw [Int32.toInt32_toUInt32] at hback
    exact hback
  · intro h
    rw [h]
    decide

/-- An entry is served as an empty answer when it has rows and all of them stand for no log. -/
theorem served_empty_iff {rows : List LogRow} :
    (∃ logs, served keccak256 chainId f rows = some logs ∧
      logs.filter (fun l => l.logIndex ≠ 4294967295) = []) ↔
    rowsFor (filterColumns keccak256 chainId f) rows ≠ [] ∧
      ∀ r ∈ rowsFor (filterColumns keccak256 chainId f) rows, r.logIndex = -1 := by
  have hnone : (((rowsFor (filterColumns keccak256 chainId f) rows).insertionSort LogRow.le).map
      fun r => r.intoLog chainId).filter (fun l => l.logIndex ≠ 4294967295) = [] ↔
      ∀ r ∈ rowsFor (filterColumns keccak256 chainId f) rows, r.logIndex = -1 := by
    rw [List.filter_eq_nil_iff, List.forall_mem_map]
    refine forall_congr' fun r => ?_
    rw [(List.perm_insertionSort LogRow.le _).mem_iff, decide_eq_true_eq, not_not]
    exact imp_congr_right fun _ => toUInt32_eq_max_iff r.logIndex
  rw [← hnone, ne_eq, ← List.length_eq_zero_iff]
  unfold served
  split_ifs with hempty
  · exact iff_of_false (fun ⟨_, h, _⟩ => nomatch h) fun h => h.1 hempty
  · constructor
    · intro ⟨logs, hlogs, hfilter⟩
      cases hlogs
      exact ⟨hempty, hfilter⟩
    · intro h
      exact ⟨_, rfl, h.2⟩

theorem remembersEmpty_iff_rows {ε : Type} {inner : LogFilter → Except ε (List Log)}
    {w : RpcCache} :
    RemembersEmpty keccak256 fate inner chainId f w ↔
      (fate w.clock = .executed ∧ fate (w.clock + 1) = .executed) ∧
      rowsFor (filterColumns keccak256 chainId f) w.logs ≠ [] ∧
      ∀ r ∈ rowsFor (filterColumns keccak256 chainId f) w.logs, r.logIndex = -1 := by
  rw [remembersEmpty_iff, ← served_empty_iff]
  constructor
  · intro ⟨logs, hget, hnone⟩
    obtain ⟨hfirst, hsecond, hserved⟩ := storeGetLogs_some_iff.mp hget
    exact ⟨⟨hfirst, hsecond⟩, logs, hserved, hnone⟩
  · intro ⟨⟨hfirst, hsecond⟩, logs, hserved, hnone⟩
    exact ⟨logs, storeGetLogs_some_iff.mpr ⟨hfirst, hsecond, hserved⟩, hnone⟩

theorem rows_after_marker_iff {columns : FilterColumns} {rows : List LogRow} :
    (rowsFor columns (addRow rows (sentinelRow columns)) ≠ [] ∧
      ∀ r ∈ rowsFor columns (addRow rows (sentinelRow columns)), r.logIndex = -1) ↔
    (∀ r ∈ rowsFor columns rows, r.logIndex = -1) ∧
      (rowsFor columns rows ≠ [] ∨ ∀ r ∈ rows, r.key ≠ (columns.chainId, -1, -1)) := by
  by_cases hfresh : ∀ r ∈ rows, r.key ≠ (columns.chainId, -1, -1)
  · have hrows : rowsFor columns (rows ++ [sentinelRow columns]) =
        rowsFor columns rows ++ [sentinelRow columns] := by
      unfold rowsFor
      rw [List.filter_append]
      congr 1
      exact List.filter_eq_self.mpr fun r hr => by
        rw [List.mem_singleton.mp hr]
        exact decide_eq_true rfl
    rw [addRow_of_fresh hfresh, hrows, List.forall_mem_append]
    constructor
    · intro h
      exact ⟨h.2.1, .inr hfresh⟩
    · intro h
      refine ⟨List.append_ne_nil_of_right_ne_nil _ (List.cons_ne_nil _ _), h.1, fun r hr => ?_⟩
      rw [List.mem_singleton.mp hr]
      rfl
  · have hsame : addRow rows (sentinelRow columns) = rows := by
      unfold addRow
      apply if_pos
      rw [List.any_eq_true]
      by_contra hnone
      exact hfresh fun r hr hkey => hnone ⟨r, hr, decide_eq_true hkey⟩
    rw [hsame, or_iff_left hfresh]
    exact and_comm

/-- After an empty answer was stored the next call finds it, exactly when its lookup goes through,
no row of a log stands under the columns of the filter, and the row of the marker has a place: it
is there already, or no marker of another filter of the chain is. -/
theorem empty_answer_remembered_iff {ε : Type} (inner : LogFilter → Except ε (List Log))
    {w w' : RpcCache}
    (hput : RpcCacheStore.putLogs keccak256 fate chainId f [] w = (.ok (), w')) :
    RemembersEmpty keccak256 fate inner chainId f w' ↔
      (fate (w.clock + 1) = .executed ∧ fate (w.clock + 2) = .executed) ∧
      (∀ r ∈ rowsFor (filterColumns keccak256 chainId f) w.logs, r.logIndex = -1) ∧
      (rowsFor (filterColumns keccak256 chainId f) w.logs ≠ [] ∨
        ∀ r ∈ w.logs, r.key ≠ (chainId.toInt64, -1, -1)) := by
  have hw' : w' = { w with
      clock := w.clock + 1
      logs := addRow w.logs (sentinelRow (filterColumns keccak256 chainId f)) } := by
    rw [putLogs_eq] at hput
    obtain ⟨w₁, hinsert, hnil⟩ := Proc.forEach_cons_ok_iff.mp hput
    cases hnil
    obtain ⟨_, w₂, hsend, hmodify⟩ := Proc.bind_ok_iff.mp hinsert
    have hw₂ := (sendCache_ok hsend).2
    subst hw₂
    cases hmodify
    rfl
  subst hw'
  rw [remembersEmpty_iff_rows]
  exact and_congr_right fun _ => rows_after_marker_iff

/-- With nothing stored before, the empty answer of a filter is found. -/
theorem empty_answer_remembered_iff_first :
    RemembersEmpty keccakOfZeros (fun _ => .executed) (fun _ => (.error () : Except Unit (List Log)))
      1 (blocksFilter 0 10) (RpcCacheStore.putLogs keccakOfZeros (fun _ => .executed) 1
        (blocksFilter 0 10) [] RpcCache.empty).2 :=
  (empty_answer_remembered_iff _ (w := RpcCache.empty) rfl).mpr
    ⟨⟨rfl, rfl⟩, fun _ hr => absurd hr List.not_mem_nil, .inr fun _ hr => absurd hr List.not_mem_nil⟩

/-- The second empty answer of a chain is not stored, and its filter is asked for again. -/
theorem second_empty_answer_forgotten :
    let put := RpcCacheStore.putLogs keccakOfZeros (fun _ => .executed) 1
    let w := (put (blocksFilter 0 10) [] RpcCache.empty).2
    (put (blocksFilter 11 20) [] w).1 = .ok () ∧
      ¬RemembersEmpty keccakOfZeros (fun _ => .executed)
        (fun _ => (.ok [] : Except Unit (List Log))) 1 (blocksFilter 11 20)
        (put (blocksFilter 11 20) [] w).2 := by
  refine ⟨rfl, fun h => ?_⟩
  have hmisses := h.misses
  revert hmisses
  decide +kernel

end Empty

end ForgeIndex
