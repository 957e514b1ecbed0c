import ForgeIndex.Abi.Decoder
import ForgeIndex.Backfill.Coordinator
import ForgeIndex.Config.Types
import ForgeIndex.Rpc.Transparency

/-!
# The backfill worker

`forge-index-sync/src/backfill/worker.rs`: the logs of one contract in one range of blocks.  The
client is a parameter; a fault of the decoder ends the run.
-/

namespace ForgeIndex

/-- `Display` of `AbiError`. -/
def AbiError.display : AbiError → String
  | .parseError message => "ABI parse error: " ++ message
  | .unknownType name => "Unknown ABI type: " ++ name
  | .invalidSelector => "Invalid event selector"
  | .decodeMismatch message => "ABI decode mismatch: " ++ message

/-- The addresses that the configuration itself names. -/
def AddressConfig.configured : AddressConfig → List Address
  | .single address => [address]
  | .multiple addresses => addresses
  | .factory _ => []

/-- The addresses of a contract: the configured ones, or those its factory has brought forth. -/
def AddressConfig.own (discovered : List Address) : AddressConfig → List Address
  | .single address => [address]
  | .multiple addresses => addresses
  | .factory _ => discovered

/-- `BackfillWorker`, for a type of clients. -/
structure BackfillWorker (C : Type) where
  client : C
  decoder : LogDecoder
  contract : Config.Contract
  chainId : UInt64
  selectors : List Hash32
  addresses : List Address

namespace BackfillWorker

variable {C σ : Type}

/-- `BackfillWorker::new`; a factory's addresses are left to `set_addresses`. -/
def new (client : C) (decoder : LogDecoder) (contract : Config.Contract) (chainId : UInt64)
    (selectors : List Hash32) : BackfillWorker C where
  client := client
  decoder := decoder
  contract := contract
  chainId := chainId
  selectors := selectors
  addresses := contract.address.configured

def setAddresses (w : BackfillWorker C) (addresses : List Address) : BackfillWorker C :=
  { w with addresses }

/-- The filter that `fetch_range` asks with. -/
def filter (w : BackfillWorker C) (range : BlockRange) : LogFilter where
  address := w.addresses
  topics := if w.selectors.isEmpty then [] else [some w.selectors]
  fromBlock := range.fromBlock
  toBlock := range.toBlock

/-- The loop over the logs; a log of no known event is skipped. -/
def decodeLogs (w : BackfillWorker C) : List Log → Decode (List DecodedEvent)
  | [] => .ok []
  | log :: logs =>
    match w.decoder.decode log w.contract.name with
    | .ok event => do
      let events ← w.decodeLogs logs
      .ok (event :: events)
    | .error (.err .invalidSelector) => w.decodeLogs logs
    | .error e => .error e

def fetchRange (getLogs : C → LogFilter → Proc σ String (List Log)) (w : BackfillWorker C)
    (range : BlockRange) : Proc σ SyncError (List DecodedEvent) := do
  let logs ← (getLogs w.client (w.filter range)).mapErr (SyncError.rpc w.chainId)
  match w.decodeLogs logs with
  | .ok events => pure (events.insertionSort DecodedEvent.le)
  | .error (.err e) => Proc.fail (.decode w.contract.name e.display)
  | .error (.fault _) => Proc.stop

/-- The decoder refuses the log, for another reason than an unknown event. -/
def Refuses (w : BackfillWorker C) (log : Log) : Prop :=
  ∃ e, w.decoder.decode log w.contract.name = .error e ∧ e ≠ .err .invalidSelector

theorem rawLog_of_decode {d : LogDecoder} {log : Log} {name : String} {event : DecodedEvent}
    (h : d.decode log name = .ok event) : event.rawLog = log := by
  unfold LogDecoder.decode LogDecoder.decodeWith at h
  cases htopics : log.topics with
  | nil =>
    rw [htopics] at h
    cases h
  | cons selector topics =>
    rw [htopics] at h
    dsimp only at h
    cases hevent : d.events selector with
    | none =>
      rw [hevent] at h
      cases h
    | some e =>
      rw [hevent] at h
      obtain ⟨params, -, heq⟩ := bind_eq_ok.mp h
      cases heq
      rfl

theorem decodeLogs_ok_iff (w : BackfillWorker C) (logs : List Log) :
    (∃ events, w.decodeLogs logs = .ok events) ↔ ∀ log ∈ logs, ¬w.Refuses log := by
  induction logs with
  | nil => exact iff_of_true ⟨[], rfl⟩ (by simp)
  | cons log logs ih =>
    rw [List.forall_mem_cons, ← ih, decodeLogs]
    unfold Refuses
    cases hdecode : w.decoder.decode log w.contract.name with
    | ok event =>
      dsimp only
      cases w.decodeLogs logs with
      | ok events => exact iff_of_true ⟨_, rfl⟩ ⟨by simp, _, rfl⟩
      | error e => exact iff_of_false (by simp [bind, Except.bind]) (by simp)
    | error e =>
      by_cases he : e = .err .invalidSelector
      · subst he
        simp
      · have hrefused : ∃ e', (Except.error e : Decode DecodedEvent) = .error e' ∧
            e' ≠ .err .invalidSelector := ⟨e, rfl, he⟩
        refine iff_of_false ?_ (fun h => h.1 hrefused)
        intro ⟨events, h⟩
        split at h
        · rename_i heq
          cases heq
        · rename_i heq
          cases heq
          exact he rfl
        · cases h

theorem mem_decodeLogs {w : BackfillWorker C} {logs : List Log} {events : List DecodedEvent}
    (h : w.decodeLogs logs = .ok events) (event : DecodedEvent) :
    event ∈ events ↔ ∃ log ∈ logs, w.decoder.decode log w.contract.name = .ok event := by
  induction logs generalizing events with
  | nil =>
    cases h
    simp
  | cons log logs ih =>
    rw [decodeLogs] at h
    cases hdecode : w.decoder.decode log w.contract.name with
    | ok first =>
      rw [hdecode] at h
      obtain ⟨rest, hrest, heq⟩ := bind_eq_ok.mp h
      cases heq
      rw [List.mem_cons, ih hrest]
      simp only [List.mem_cons, exists_eq_or_imp, hdecode, Except.ok.injEq]
      exact or_congr_left eq_comm
    | error e =>
      rw [hdecode] at h
      have hrest : w.decodeLogs logs = .ok events := by
        split at h
        · rename_i heq
          cases heq
        · exact h
        · cases h
      rw [ih hrest]
      simp [hdecode]

theorem mem_fetchRange {getLogs : C → LogFilter → Proc σ String (List Log)}
    {w : BackfillWorker C} {range : BlockRange} {logs : List Log} {s s' : σ}
    (hlogs : getLogs w.client (w.filter range) s = (.ok logs, s')) {events : List DecodedEvent}
    {t : σ} (h : w.fetchRange getLogs range s = (.ok events, t)) (event : DecodedEvent) :
    event ∈ events ↔ ∃ log ∈ logs, w.decoder.decode log w.contract.name = .ok event := by
  obtain ⟨logs', s'', hget, hrest⟩ := Proc.bind_ok_iff.mp h
  rw [Proc.mapErr_ok_iff, hlogs] at hget
  cases hget
  cases hdecode : w.decodeLogs logs with
  | error e =>
    rw [hdecode] at hrest
    cases e <;> cases hrest
  | ok decoded =>
    rw [hdecode] at hrest
    cases hrest
    rw [List.mem_insertionSort, mem_decodeLogs hdecode]

theorem fetchRange_ok_iff {getLogs : C → LogFilter → Proc σ String (List Log)}
    {w : BackfillWorker C} {range : BlockRange} {logs : List Log} {s s' : σ}
    (hlogs : getLogs w.client (w.filter range) s = (.ok logs, s')) :
    (∃ events t, w.fetchRange getLogs range s = (.ok events, t)) ↔
      ∀ log ∈ logs, ¬w.Refuses log := by
  rw [← decodeLogs_ok_iff]
  constructor
  · intro ⟨events, t, h⟩
    obtain ⟨logs', s'', hget, hrest⟩ := Proc.bind_ok_iff.mp h
    rw [Proc.mapErr_ok_iff, hlogs] at hget
    cases hget
    cases hdecode : w.decodeLogs logs with
    | error e =>
      rw [hdecode] at hrest
      cases e <;> cases hrest
    | ok decoded => exact ⟨decoded, rfl⟩
  · intro ⟨decoded, hdecode⟩
    refine ⟨decoded.insertionSort DecodedEvent.le, s', ?_⟩
    refine Proc.bind_ok_iff.mpr ⟨logs, s', Proc.mapErr_ok_iff.mpr hlogs, ?_⟩
    rw [hdecode]
    rfl

end BackfillWorker

end ForgeIndex
