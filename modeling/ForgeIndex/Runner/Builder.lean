import Mathlib.Data.List.Induction
import ForgeIndex.Backfill.Coordinator
import ForgeIndex.Config.Validation
import ForgeIndex.Telemetry.BuildId

/-!
# The builder of an application

`forge-index/src/builder.rs` and `forge-index-core/src/registry/event_registry.rs`: handlers are
registered under their keys, and `build` checks every key against the ABIs of the configuration.
-/

namespace ForgeIndex

variable {V : Type}

/-- `SetupHandlerFn`: what becomes of its call.  It is given no database. -/
abbrev SetupHandler := Ended String Unit

structure EventRegistry where
  handlers : String → Option LegacyHandler
  setupHandlers : String → Option SetupHandler

namespace EventRegistry

def new : EventRegistry := ⟨fun _ => none, fun _ => none⟩

def register (r : EventRegistry) (key : String) (handler : LegacyHandler) : EventRegistry :=
  { r with handlers := Function.update r.handlers key (some handler) }

def registerSetup (r : EventRegistry) (contract : String) (handler : SetupHandler) :
    EventRegistry :=
  { r with setupHandlers := Function.update r.setupHandlers contract (some handler) }

end EventRegistry

/-- `SetupEventHandlerFn`, which is given a `DbContext`. -/
abbrev SetupEventHandler (V : Type) := Except String (Proc (World V) String Unit)

structure ForgeIndexRunner (V : Type) where
  config : Config
  schema : Schema
  registry : EventRegistry
  dbHandlers : String → Option (EventHandlerFn V)
  buildId : String

/-- `ForgeIndex`. -/
structure ForgeIndexBuilder (V : Type) where
  config : Option Config
  schema : Option Schema
  legacyRegistry : EventRegistry
  dbHandlers : String → Option (EventHandlerFn V)
  dbSetupHandlers : String → Option (SetupEventHandler V)
  allHandlerKeys : List String

/-- A call on the builder. -/
inductive BuilderCall (V : Type) where
  | config (config : Config)
  | schema (schema : Schema)
  | on (eventKey : String) (handler : LegacyHandler)
  | onDb (eventKey : String) (handler : EventHandlerFn V)
  | setup (contract : String) (handler : SetupHandler)
  | setupDb (contract : String) (handler : SetupEventHandler V)

namespace BuilderCall

/-- The key of an event handler. -/
def eventKey : BuilderCall V → Option String
  | on key _ => some key
  | onDb key _ => some key
  | _ => none

def asConfig : BuilderCall V → Option Config
  | config c => some c
  | _ => none

def asSchema : BuilderCall V → Option Schema
  | schema s => some s
  | _ => none

/-- The legacy handler that the call registers under the key. -/
def asOn (key : String) : BuilderCall V → Option LegacyHandler
  | on key' handler => if key' = key then some handler else none
  | _ => none

def asOnDb (key : String) : BuilderCall V → Option (EventHandlerFn V)
  | onDb key' handler => if key' = key then some handler else none
  | _ => none

def asSetup (contract : String) : BuilderCall V → Option SetupHandler
  | setup contract' handler => if contract' = contract then some handler else none
  | _ => none

end BuilderCall

namespace ForgeIndexBuilder

def new : ForgeIndexBuilder V where
  config := none
  schema := none
  legacyRegistry := EventRegistry.new
  dbHandlers _ := none
  dbSetupHandlers _ := none
  allHandlerKeys := []

/-- `config`, `schema`, `on`, `on_db`, `setup` and `setup_db`. -/
def call (b : ForgeIndexBuilder V) : BuilderCall V → ForgeIndexBuilder V
  | .config config => { b with config := some config }
  | .schema schema => { b with schema := some schema }
  | .on eventKey handler => { b with
      legacyRegistry := b.legacyRegistry.register eventKey handler
      allHandlerKeys := b.allHandlerKeys ++ [eventKey] }
  | .onDb eventKey handler => { b with
      dbHandlers := Function.update b.dbHandlers eventKey (some handler)
      allHandlerKeys := b.allHandlerKeys ++ [eventKey] }
  | .setup contract handler => { b with
      legacyRegistry := b.legacyRegistry.registerSetup contract handler }
  | .setupDb contract handler => { b with
      dbSetupHandlers := Function.update b.dbSetupHandlers contract (some handler) }

variable (parse : String → Except AbiError ParsedAbi) (keccak256 : Bytes → Hash32)
  (sha256 : Bytes → Bytes)

/-- `known_events`: contracts whose ABI does not parse add nothing. -/
def knownEvents (config : Config) : List String :=
  config.contracts.flatMap fun contract =>
    match parse contract.abiJson with
    | .ok parsed => parsed.events.map fun event => contract.name ++ ":" ++ event.name
    | .error _ => []

/-- The loop over the registered keys. -/
def checkKeys (known : List String) : List String → Except ForgeError Unit
  | [] => .ok ()
  | key :: keys =>
    if key ∈ known then checkKeys known keys
    else .error (.config ("Handler '" ++ key ++ "' references unknown contract or event. " ++
      "Ensure the contract is in the config and the event is in its ABI."))

def build (b : ForgeIndexBuilder V) : Except ForgeError (ForgeIndexRunner V) :=
  match b.config with
  | none => .error (.config "Config is required")
  | some config =>
    match b.schema with
    | none => .error (.config "Schema is required")
    | some schema => do
      checkKeys (knownEvents parse config) b.allHandlerKeys
      pure {
        config := config
        schema := schema
        registry := b.legacyRegistry
        -- `db_setup_handlers` is not handed on
        dbHandlers := b.dbHandlers
        buildId := BuildInput.computeBuildId keccak256 sha256 ⟨config, schema, b.allHandlerKeys⟩ }

/-- The last value that a call of the chain gives. -/
def last {α : Type} (f : BuilderCall V → Option α) (calls : List (BuilderCall V)) : Option α :=
  (calls.filterMap f).getLast?

theorem last_append_singleton {α : Type} (f : BuilderCall V → Option α)
    (calls : List (BuilderCall V)) (c : BuilderCall V) :
    last f (calls ++ [c]) = (f c).or (last f calls) := by
  unfold last
  rw [List.filterMap_append]
  cases hc : f c <;> simp [hc]

/-- The state of the builder after a chain of calls. -/
structure After (calls : List (BuilderCall V)) (b : ForgeIndexBuilder V) : Prop where
  config : b.config = last BuilderCall.asConfig calls
  schema : b.schema = last BuilderCall.asSchema calls
  on : ∀ key, b.legacyRegistry.handlers key = last (BuilderCall.asOn key) calls
  onDb : ∀ key, b.dbHandlers key = last (BuilderCall.asOnDb key) calls
  setup : ∀ contract, b.legacyRegistry.setupHandlers contract =
    last (BuilderCall.asSetup contract) calls
  keys : b.allHandlerKeys = calls.filterMap BuilderCall.eventKey

theorem after_new : After [] (new : ForgeIndexBuilder V) where
  config := rfl
  schema := rfl
  on _ := rfl
  onDb _ := rfl
  setup _ := rfl
  keys := rfl

theorem update_eq_or {α : Type} (f : String → Option α) (key key' : String) (a : α) :
    Function.update f key (some a) key' = (if key = key' then some a else none).or (f key') := by
  by_cases h : key = key'
  · subst h
    simp
  · rw [Function.update_of_ne (Ne.symm h), if_neg h, Option.none_or]

theorem After.call {calls : List (BuilderCall V)} {b : ForgeIndexBuilder V} (h : After calls b)
    (c : BuilderCall V) : After (calls ++ [c]) (b.call c) := by
  cases c <;> constructor <;>
    simp [ForgeIndexBuilder.call, last_append_singleton, BuilderCall.asConfig, BuilderCall.asSchema,
      BuilderCall.asOn, BuilderCall.asOnDb, BuilderCall.asSetup, BuilderCall.eventKey,
      EventRegistry.register, EventRegistry.registerSetup, update_eq_or, h.config, h.schema, h.on,
      h.onDb, h.setup, h.keys]

theorem after_calls (calls : List (BuilderCall V)) : After calls (calls.foldl call new) := by
  induction calls using List.reverseRecOn with
  | nil => exact after_new
  | append_singleton calls c ih =>
    rw [List.foldl_append]
    exact ih.call c

/-- The key names an event in the ABI of a configured contract. -/
def KnownEvent (config : Config) (key : String) : Prop :=
  ∃ contract ∈ config.contracts, ∃ abi, parse contract.abiJson = .ok abi ∧
    ∃ event ∈ abi.events, key = contract.name ++ ":" ++ event.name

variable {parse}

theorem mem_knownEvents {config : Config} {key : String} :
    key ∈ knownEvents parse config ↔ KnownEvent parse config key := by
  unfold knownEvents KnownEvent
  rw [List.mem_flatMap]
  apply exists_congr
  intro contract
  apply and_congr_right
  intro _
  cases parse contract.abiJson with
  | error e => simp
  | ok abi => simp [eq_comm]

theorem checkKeys_ok_iff {known keys : List String} {u : Unit} :
    checkKeys known keys = .ok u ↔ ∀ key ∈ keys, key ∈ known := by
  induction keys with
  | nil => simp [checkKeys]
  | cons key keys ih =>
    rw [checkKeys, List.forall_mem_cons]
    by_cases h : key ∈ known
    · rw [if_pos h, ih]
      exact ⟨fun hrest => ⟨h, hrest⟩, fun hall => hall.2⟩
    · rw [if_neg h]
      exact ⟨fun herr => by simp at herr, fun hall => absurd hall.1 h⟩

theorem build_ok_iff {b : ForgeIndexBuilder V} {r : ForgeIndexRunner V} :
    b.build parse keccak256 sha256 = .ok r ↔ b.config = some r.config ∧ b.schema = some r.schema ∧
      (∀ key ∈ b.allHandlerKeys, KnownEvent parse r.config key) ∧
      r.registry = b.legacyRegistry ∧ r.dbHandlers = b.dbHandlers ∧
      r.buildId = BuildInput.computeBuildId keccak256 sha256
        ⟨r.config, r.schema, b.allHandlerKeys⟩ := by
  unfold build
  cases b.config with
  | none => exact iff_of_false (fun h => by cases h) (by simp)
  | some config =>
    cases b.schema with
    | none => exact iff_of_false (fun h => by cases h) (by simp)
    | some schema =>
      simp only [Option.some.injEq]
      cases hcheck : checkKeys (knownEvents parse config) b.allHandlerKeys with
      | error e =>
        refine iff_of_false (fun h => by cases h) ?_
        intro ⟨hconfig, _, hall, _⟩
        have hok : checkKeys (knownEvents parse config) b.allHandlerKeys = .ok () :=
          checkKeys_ok_iff.mpr fun key hkey => mem_knownEvents.mpr (hconfig ▸ hall key hkey)
        rw [hcheck] at hok
        cases hok
      | ok u =>
        have hknown (key : String) (hkey : key ∈ b.allHandlerKeys) : KnownEvent parse config key :=
          mem_knownEvents.mp (checkKeys_ok_iff.mp hcheck key hkey)
        constructor
        · intro h
          cases h
          exact ⟨rfl, rfl, hknown, rfl, rfl, rfl⟩
        · intro ⟨hconfig, hschema, _, hregistry, hdb, hid⟩
          obtain ⟨rconfig, rschema, registry, dbHandlers, buildId⟩ := r
          dsimp only at hconfig hschema hregistry hdb hid
          subst hconfig hschema hregistry hdb hid
          rfl

/-- A chain of calls builds a runner exactly when it gives a configuration and tables and every
event handler stands under the key of a configured event.  What is built has the last
configuration, the last tables and the last handler under each key; no call of `setup_db` is in
it. -/
theorem built_iff (calls : List (BuilderCall V)) (r : ForgeIndexRunner V) :
    (calls.foldl call new).build parse keccak256 sha256 = .ok r ↔
      last BuilderCall.asConfig calls = some r.config ∧
      last BuilderCall.asSchema calls = some r.schema ∧
      (∀ c ∈ calls, ∀ key, c.eventKey = some key → KnownEvent parse r.config key) ∧
      (∀ key, r.registry.handlers key = last (BuilderCall.asOn key) calls) ∧
      (∀ contract, r.registry.setupHandlers contract = last (BuilderCall.asSetup contract) calls) ∧
      (∀ key, r.dbHandlers key = last (BuilderCall.asOnDb key) calls) ∧
      r.buildId = BuildInput.computeBuildId keccak256 sha256
        ⟨r.config, r.schema, calls.filterMap BuilderCall.eventKey⟩ := by
  have h := after_calls calls
  have hkeys : (∀ key ∈ calls.filterMap BuilderCall.eventKey, KnownEvent parse r.config key) ↔
      ∀ c ∈ calls, ∀ key, c.eventKey = some key → KnownEvent parse r.config key := by
    simp only [List.mem_filterMap]
    exact ⟨fun hall c hc key hkey => hall key ⟨c, hc, hkey⟩, fun hall key ⟨c, hc, hkey⟩ =>
      hall c hc key hkey⟩
  have hregistry : r.registry = (calls.foldl call new).legacyRegistry ↔
      (∀ key, r.registry.handlers key = last (BuilderCall.asOn key) calls) ∧
        ∀ contract, r.registry.setupHandlers contract =
          last (BuilderCall.asSetup contract) calls := by
    simp only [← h.on, ← h.setup]
    constructor
    · intro hr
      rw [hr]
      exact ⟨fun _ => rfl, fun _ => rfl⟩
    · intro ⟨hon, hsetup⟩
      have hr : r.registry = ⟨r.registry.handlers, r.registry.setupHandlers⟩ := rfl
      rw [hr, funext hon, funext hsetup]
  have hdb : r.dbHandlers = (calls.foldl call new).dbHandlers ↔
      ∀ key, r.dbHandlers key = last (BuilderCall.asOnDb key) calls := by
    simp only [← h.onDb]
    exact funext_iff
  rw [build_ok_iff, h.config, h.schema, h.keys, hkeys, hregistry, hdb, and_assoc]

end ForgeIndexBuilder

end ForgeIndex
