import ForgeIndex.Backfill.Worker

/-!
# Whose events a worker yields

A filter without addresses selects the logs of every contract, and a contract without configured
addresses, such as one found by a factory, asks with such a filter.
-/

namespace ForgeIndex

namespace BackfillWorker

variable {C σ : Type}

/-- The worker that the runner builds for a contract with this ABI. -/
def ofAbi (client : C) (abi : ParsedAbi) (contract : Config.Contract) (chainId : UInt64) :
    BackfillWorker C :=
  new client (LogDecoder.new abi) contract chainId (abi.events.map AbiEvent.selector)

/-- The log is in the range, and its first topic is one that the worker asks for. -/
def Watches (w : BackfillWorker C) (range : BlockRange) (log : Log) : Prop :=
  range.Covers log.blockNumber ∧ LogFilter.topicsMatch (w.filter range).topics log.topics = true

/-- Every event comes from an address of the contract. -/
def OwnEvents (contract : Config.Contract) (discovered : List Address)
    (events : List DecodedEvent) : Prop :=
  ∀ e ∈ events, e.rawLog.address ∈ contract.address.own discovered

theorem selects_filter_iff (w : BackfillWorker C) (range : BlockRange) (log : Log) :
    (w.filter range).selects log = true ↔
      w.Watches range log ∧ (w.addresses = [] ∨ log.address ∈ w.addresses) := by
  have htake : (w.filter range).topics.take 4 = (w.filter range).topics := by
    apply List.take_of_length_le
    unfold filter
    dsimp only
    split_ifs <;> simp
  unfold LogFilter.selects Watches BlockRange.Covers
  rw [htake]
  simp only [filter, Bool.and_eq_true, Bool.or_eq_true, decide_eq_true_eq, List.isEmpty_iff]
  tauto

theorem own_of_configured {address : AddressConfig} (h : address.configured ≠ [])
    (discovered : List Address) : address.own discovered = address.configured := by
  cases address with
  | factory config => exact absurd rfl h
  | _ => rfl

/-- With a node that returns what the filter selects, every event returned comes from an address
of the contract if and only if an address is configured, or a log that is asked for is refused, or
every log of that kind that decodes comes from one of the contract's addresses. -/
theorem fetchRange_own_iff {getLogs : C → LogFilter → Proc σ String (List Log)} {client : C}
    {abi : ParsedAbi} {contract : Config.Contract} {chainId : UInt64} {range : BlockRange}
    {logs : List Log} {s s' : σ}
    (hnode : getLogs client ((ofAbi client abi contract chainId).filter range) s =
      (.ok (logs.filter ((ofAbi client abi contract chainId).filter range).selects), s'))
    (discovered : List Address) :
    (∀ events t, (ofAbi client abi contract chainId).fetchRange getLogs range s = (.ok events, t) →
        OwnEvents contract discovered events) ↔
      contract.address.configured ≠ [] ∨
      (∃ log ∈ logs, (ofAbi client abi contract chainId).Watches range log ∧
        (ofAbi client abi contract chainId).Refuses log) ∨
      ∀ log ∈ logs, (ofAbi client abi contract chainId).Watches range log →
        ∀ event, (LogDecoder.new abi).decode log contract.name = .ok event →
          log.address ∈ contract.address.own discovered := by
  have hmem (log : Log) :
      log ∈ logs.filter ((ofAbi client abi contract chainId).filter range).selects ↔
        log ∈ logs ∧ (ofAbi client abi contract chainId).Watches range log ∧
          (contract.address.configured = [] ∨ log.address ∈ contract.address.configured) := by
    rw [List.mem_filter, selects_filter_iff]
    exact Iff.rfl
  constructor
  · intro h
    by_cases hconfigured : contract.address.configured = []
    · right
      by_cases hrefused : ∃ log ∈ logs, (ofAbi client abi contract chainId).Watches range log ∧
          (ofAbi client abi contract chainId).Refuses log
      · exact .inl hrefused
      · right
        -- the call returns, with the event of every log that decodes
        obtain ⟨events, t, hrun⟩ := (fetchRange_ok_iff hnode).mpr fun log hlog href =>
          hrefused ⟨log, ((hmem log).mp hlog).1, ((hmem log).mp hlog).2.1, href⟩
        intro log hlog hwatch event hdecode
        have hevent : event ∈ events := (mem_fetchRange hnode hrun event).mpr
          ⟨log, (hmem log).mpr ⟨hlog, hwatch, .inl hconfigured⟩, hdecode⟩
        have hown := h events t hrun event hevent
        rw [rawLog_of_decode hdecode] at hown
        exact hown
    · exact .inl hconfigured
  · intro h events t hrun event hevent
    obtain ⟨log, hlog, hdecode⟩ := (mem_fetchRange hnode hrun event).mp hevent
    obtain ⟨hon, hwatch, haddress⟩ := (hmem log).mp hlog
    rw [rawLog_of_decode hdecode]
    rcases h with hconfigured | hrefused | hall
    · rw [own_of_configured hconfigured]
      exact haddress.resolve_left hconfigured
    · obtain ⟨refused, hin, hwatched, href⟩ := hrefused
      by_cases hconfigured : contract.address.configured = []
      · exact absurd href ((fetchRange_ok_iff hnode).mp ⟨events, t, hrun⟩ refused
          ((hmem refused).mpr ⟨hin, hwatched, .inl hconfigured⟩))
      · rw [own_of_configured hconfigured]
        exact haddress.resolve_left hconfigured
    · exact hall log hon hwatch event hdecode

section Cached

variable (keccak256 : Bytes → Hash32) {fate : ℕ → Fate} {ε : Type}

/-- A row of the cache is the marker of an empty answer, or a log that was selected by a filter
with the row's columns. -/
def CacheSound (w : RpcCache) : Prop :=
  ∀ r ∈ w.logs, r.logIndex = -1 ∨ ∃ chainId f l,
    r = logRow keccak256 (filterColumns keccak256 chainId f) l ∧ f.selects l = true

/-- The log comes from one of the addresses of the filter, if it has any. -/
def Meets (f : LogFilter) (l : Log) : Prop := f.address = [] ∨ l.address ∈ f.address

theorem meets_of_selects {f : LogFilter} {l : Log} (h : f.selects l = true) : Meets f l := by
  unfold LogFilter.selects at h
  simp only [Bool.and_eq_true, Bool.or_eq_true, decide_eq_true_eq, List.isEmpty_iff] at h
  exact h.1.2

theorem address_of_filterColumns {chainId chainId' : UInt64} {f f' : LogFilter}
    (h : filterColumns keccak256 chainId f = filterColumns keccak256 chainId' f') :
    f.address = f'.address := by
  have hinj : Function.Injective (Address.checksumHex keccak256) := by
    intro a b hab
    have hread := congrArg Address.fromHex hab
    rw [Address.fromHex_checksumHex, Address.fromHex_checksumHex] at hread
    exact Option.some.inj hread
  exact List.map_injective_iff.mpr hinj (congrArg FilterColumns.address h)

variable {keccak256}

theorem sendCache_sound : Proc.Triple (CacheSound keccak256) (sendCache fate)
    (fun _ => CacheSound keccak256) (CacheSound keccak256) := by
  intro w hw
  unfold sendCache
  cases fate w.clock <;> exact hw

theorem insertLogRow_sound {r : LogRow} (hr : r.logIndex = -1 ∨ ∃ chainId f l,
    r = logRow keccak256 (filterColumns keccak256 chainId f) l ∧ f.selects l = true) :
    Proc.Triple (CacheSound keccak256) (insertLogRow fate r) (fun _ => CacheSound keccak256)
      (CacheSound keccak256) := by
  apply sendCache_sound.bind
  intro _
  apply Proc.Triple.modify
  intro w hw
  unfold CacheSound
  dsimp only
  split_ifs
  · exact hw
  · intro s hs
    rcases List.mem_append.mp hs with hs | hs
    · exact hw s hs
    · rw [List.mem_singleton.mp hs]
      exact hr

theorem putLogs_sound (chainId : UInt64) {f : LogFilter} {logs : List Log}
    (hlogs : ∀ l ∈ logs, f.selects l = true) :
    Proc.Triple (CacheSound keccak256) (RpcCacheStore.putLogs keccak256 fate chainId f logs)
      (fun _ => CacheSound keccak256) (CacheSound keccak256) := by
  apply Proc.Triple.bind
  · apply Proc.Triple.forEach (I := fun _ => CacheSound keccak256)
    intro pre l post hsplit
    have hl : l ∈ logs := by simp [hsplit]
    exact insertLogRow_sound (.inr ⟨chainId, f, l, rfl, hlogs l hl⟩)
  · intro _
    split_ifs
    · exact insertLogRow_sound (.inl rfl)
    · exact Proc.Triple.pure fun _ h => h

theorem storeGetLogs_sound (chainId : UInt64) (f : LogFilter) :
    Proc.Triple (CacheSound keccak256) (RpcCacheStore.getLogs keccak256 fate chainId f)
      (fun found w => CacheSound keccak256 w ∧ ∀ logs, found = some logs →
        ∀ l ∈ logs, l.logIndex ≠ 4294967295 → Meets f l) (CacheSound keccak256) := by
  apply sendCache_sound.bind
  intro _
  apply (Proc.Triple.get (Q := fun _ => CacheSound keccak256) fun w h => h).bind
  intro w
  split_ifs
  · exact Proc.Triple.pure fun _ h => ⟨h, fun _ hnone => by cases hnone⟩
  · apply sendCache_sound.bind
    intro _
    apply (Proc.Triple.get (Q := fun w' w => w' = w ∧ CacheSound keccak256 w)
      fun w h => ⟨rfl, h⟩).bind
    intro w'
    apply Proc.Triple.pure
    rintro _ ⟨rfl, hsound⟩
    refine ⟨hsound, ?_⟩
    intro logs hlogs l hl hindex
    cases hlogs
    obtain ⟨r, hr, rfl⟩ := List.mem_map.mp hl
    rw [List.mem_insertionSort] at hr
    obtain ⟨hstored, hcolumns⟩ := List.mem_filter.mp hr
    rcases hsound r hstored with hmarker | ⟨chainId', f', l', rfl, hselects⟩
    · exfalso
      apply hindex
      show r.logIndex.toUInt32 = 4294967295
      rw [hmarker]
      decide
    · have haddress : f'.address = f.address :=
        address_of_filterColumns keccak256 (of_decide_eq_true hcolumns)
      have hread : ((logRow keccak256 (filterColumns keccak256 chainId' f') l').intoLog
          chainId).address = l'.address := by
        show ((Address.fromHex (l'.address.checksumHex keccak256)).getD Address.zero) = l'.address
        rw [Address.fromHex_checksumHex]
        rfl
      unfold Meets
      rw [hread, ← haddress]
      exact meets_of_selects hselects

/-- The cached client keeps the cache sound, and its answers meet the filter, whatever becomes of
its statements. -/
theorem getLogs_sound {inner : LogFilter → Except ε (List Log)} {f : LogFilter}
    (hinner : ∀ logs, inner f = .ok logs → ∀ l ∈ logs, f.selects l = true) (chainId : UInt64) :
    Proc.Triple (CacheSound keccak256) (CachedRpcClient.getLogs keccak256 fate inner chainId f)
      (fun logs w => CacheSound keccak256 w ∧ ∀ l ∈ logs, Meets f l) (CacheSound keccak256) := by
  have hmiss : Proc.Triple (CacheSound keccak256) (do
      Proc.modify fun w => { w with misses := w.misses + 1 }
      let logs ← Proc.ofExcept (inner f)
      Proc.ignore (RpcCacheStore.putLogs keccak256 fate chainId f logs)
      pure logs)
      (fun logs w => CacheSound keccak256 w ∧ ∀ l ∈ logs, Meets f l) (CacheSound keccak256) := by
    have hcount : Proc.Triple (CacheSound keccak256)
        (Proc.modify fun w => { w with misses := w.misses + 1 } : Proc RpcCache ε Unit)
        (fun _ => CacheSound keccak256) (CacheSound keccak256) :=
      Proc.Triple.modify fun _ h => h
    apply hcount.bind
    intro _
    apply (Proc.Triple.ofExcept (Q := fun logs w => CacheSound keccak256 w ∧ inner f = .ok logs)
      (fun logs hlogs w h => ⟨h, hlogs⟩) fun w h => h).bind
    intro logs w ⟨hw, hlogs⟩
    refine Proc.Triple.bind (Q := fun _ => CacheSound keccak256)
      (Proc.Triple.ignore_invariant (putLogs_sound chainId (hinner logs hlogs))) ?_ w hw
    intro _
    exact Proc.Triple.pure fun _ h => ⟨h, fun l hl => meets_of_selects (hinner logs hlogs l hl)⟩
  have hread : Proc.Triple (CacheSound keccak256)
      (Proc.attempt (RpcCacheStore.getLogs keccak256 fate chainId f) : Proc RpcCache ε _)
      (fun found w => CacheSound keccak256 w ∧ ∀ logs, found = .ok (some logs) →
        ∀ l ∈ logs, l.logIndex ≠ 4294967295 → Meets f l) (CacheSound keccak256) := by
    apply Proc.Triple.attempt
    apply (storeGetLogs_sound chainId f).conseq (fun _ h => h)
    · intro found w h
      exact ⟨h.1, fun logs hlogs => h.2 logs (Except.ok.inj hlogs)⟩
    · intro w h
      exact ⟨h, fun e => ⟨h, fun _ herr => by cases herr⟩⟩
  apply hread.bind
  intro found
  match found with
  | .ok (some logs) =>
    rintro w ⟨hw, hmeets⟩
    refine ⟨hw, fun l hl => ?_⟩
    obtain ⟨hl, hindex⟩ := List.mem_filter.mp hl
    exact hmeets logs rfl l hl (of_decide_eq_true hindex)
  | .ok none => exact fun w h => hmiss w h.1
  | .error e => exact fun w h => hmiss w h.1

/-- A contract with configured addresses gets its own events through the cache as well, in every
call of every run. -/
theorem fetchRange_own_cached {inner : LogFilter → Except String (List Log)}
    (hinner : ∀ f logs, inner f = .ok logs → ∀ l ∈ logs, f.selects l = true)
    {contract : Config.Contract} (hconfigured : contract.address.configured ≠ [])
    (abi : ParsedAbi) (chainId : UInt64) (range : BlockRange) (discovered : List Address) :
    Proc.Triple (CacheSound keccak256)
      ((ofAbi () abi contract chainId).fetchRange
        (fun _ => CachedRpcClient.getLogs keccak256 fate inner chainId) range)
      (fun events w => CacheSound keccak256 w ∧ OwnEvents contract discovered events)
      (CacheSound keccak256) := by
  apply (getLogs_sound (hinner _) chainId).mapErr.bind
  intro logs
  cases hdecode : (ofAbi () abi contract chainId).decodeLogs logs with
  | error e =>
    cases e with
    | err e => exact Proc.Triple.fail fun _ h => h.1
    | fault e => exact Proc.Triple.stop fun _ h => h.1
  | ok decoded =>
    apply Proc.Triple.pure
    rintro w ⟨hw, hmeets⟩
    refine ⟨hw, ?_⟩
    intro event hevent
    rw [List.mem_insertionSort, mem_decodeLogs hdecode] at hevent
    obtain ⟨log, hlog, hlogdecode⟩ := hevent
    rw [rawLog_of_decode hlogdecode, own_of_configured hconfigured]
    exact (hmeets log hlog).resolve_left hconfigured

end Cached

/-- The ABI of one event without inputs. -/
def pingAbi : ParsedAbi := ⟨[⟨"Ping", "Ping()", Hash32.zero, []⟩], []⟩

def pingContract (address : AddressConfig) : Config.Contract where
  name := "Pool"
  startBlock := 0
  abiJson := "[\x7b\"type\": \"event\", \"name\": \"Ping\"\x7d]"
  chainNames := ["mainnet"]
  address := address
  endBlock := none
  filter := none
  includeTransaction := false
  includeTrace := false

/-- `Ping()`, logged by the address zero. -/
def pingLog : Log where
  id := "1-0"
  chainId := 1
  address := Address.zero
  topics := [Hash32.zero]
  data := []
  blockNumber := 1
  blockHash := Hash32.zero
  transactionHash := Hash32.zero
  logIndex := 0
  transactionIndex := 0
  removed := false

/-- A node with these logs. -/
def nodeOf (logs : List Log) (_ : Unit) (f : LogFilter) : Proc Unit String (List Log) :=
  pure (logs.filter f.selects)

def pingEvent : DecodedEvent := ⟨"Ping", "Pool", IndexMap.empty, pingLog⟩

theorem fetchRange_own_iff_single :
    (ofAbi () pingAbi (pingContract (.single Address.zero)) 1).fetchRange (nodeOf [pingLog])
        ⟨0, 5⟩ () = (.ok [pingEvent], ()) ∧
      OwnEvents (pingContract (.single Address.zero)) [] [pingEvent] := by
  have hrun : (ofAbi () pingAbi (pingContract (.single Address.zero)) 1).fetchRange
      (nodeOf [pingLog]) ⟨0, 5⟩ () = (.ok [pingEvent], ()) := rfl
  have hnode : nodeOf [pingLog] ()
      ((ofAbi () pingAbi (pingContract (.single Address.zero)) 1).filter ⟨0, 5⟩) () =
      (.ok ([pingLog].filter
        ((ofAbi () pingAbi (pingContract (.single Address.zero)) 1).filter ⟨0, 5⟩).selects), ()) :=
    rfl
  have hconfigured : (pingContract (.single Address.zero)).address.configured ≠ [] :=
    List.cons_ne_nil _ _
  exact ⟨hrun, (fetchRange_own_iff hnode []).mpr (.inl hconfigured) _ _ hrun⟩

/-- The contract of a factory that has brought forth nothing yields a foreign event. -/
theorem fetchRange_not_own :
    ¬∀ (abi : ParsedAbi) (contract : Config.Contract) (chainId : UInt64) (range : BlockRange)
      (logs : List Log) (discovered : List Address) (events : List DecodedEvent),
      (ofAbi () abi contract chainId).fetchRange (nodeOf logs) range () = (.ok events, ()) →
      OwnEvents contract discovered events := by
  intro h
  have hown := h pingAbi (pingContract (.factory ⟨[Address.zero], "Created(address)", "pool", 0⟩)) 1
    ⟨0, 5⟩ [pingLog] [] [pingEvent] rfl
  exact List.not_mem_nil (hown pingEvent (List.mem_singleton_self _))

end BackfillWorker

end ForgeIndex
