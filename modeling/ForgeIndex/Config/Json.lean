import Mathlib.Data.String.Basic
import ForgeIndex.Config.Types

/-!
# The application as JSON

What `serde` makes of the types of `forge-index-config`, and the text that `serde_json` writes for
a value.  The fields of a struct come in the order of their declaration; `to_string` writes them
as they come, `to_value` keeps them in a map that is ordered by its keys.
-/

namespace ForgeIndex

namespace Json

def insert (key : String) (value : Json) : List Member → List Member
  | [] => [.mk key value]
  | .mk k v :: ms =>
    if key < k then .mk key value :: .mk k v :: ms
    else if key = k then .mk key value :: ms
    else .mk k v :: insert key value ms

/-- The fields of a struct for `to_value`. -/
def ofFields (fields : List (String × Json)) : Json :=
  .object (fields.foldl (fun ms f => insert f.1 f.2 ms) [])

/-- The fields of a struct for `to_string`. -/
def inOrder (fields : List (String × Json)) : Json := .object (fields.map fun f => .mk f.1 f.2)

def ofNat (n : ℕ) : Json := .number (toString n)

/-- `None` is `null`. -/
def ofOption {α : Type} (f : α → Json) : Option α → Json
  | none => .null
  | some a => f a

def ofStrings (ss : List String) : Json := .array (ss.map .string)

/-- A character of a string: quotes, backslashes and control characters are escaped. -/
def escapeChar (c : Char) : List Char :=
  if c = '"' then ['\\', '"']
  else if c = '\\' then ['\\', '\\']
  else if c.toNat = 8 then ['\\', 'b']
  else if c.toNat = 12 then ['\\', 'f']
  else if c = '\n' then ['\\', 'n']
  else if c = '\r' then ['\\', 'r']
  else if c = '\t' then ['\\', 't']
  else if c.toNat < 32 then
    ['\\', 'u', '0', '0', Hex.digit (c.toNat / 16), Hex.digit (c.toNat % 16)]
  else [c]

def quote (s : String) : List Char := '"' :: (s.toList.flatMap escapeChar ++ ['"'])

mutual

/-- `serde_json::to_string`. -/
def toText : Json → List Char
  | .null => "null".toList
  | .bool true => "true".toList
  | .bool false => "false".toList
  | .number text => text.toList
  | .string s => quote s
  | .array items => '[' :: (List.intercalate [','] (itemTexts items) ++ [']'])
  | .object members => '{' :: (List.intercalate [','] (memberTexts members) ++ ['}'])

def itemTexts : List Json → List (List Char)
  | [] => []
  | v :: vs => v.toText :: itemTexts vs

def memberTexts : List Member → List (List Char)
  | [] => []
  | .mk key value :: ms => (quote key ++ ':' :: value.toText) :: memberTexts ms

end

end Json

section Tables

variable (struct : List (String × Json) → Json)

/-- The name of the variant. -/
def ColumnType.toJson : ColumnType → Json
  | .text => .string "Text"
  | .boolean => .string "Boolean"
  | .int => .string "Int"
  | .bigInt => .string "BigInt"
  | .float => .string "Float"
  | .hex => .string "Hex"
  | .address => .string "Address"
  | .hash => .string "Hash"
  | .json => .string "Json"
  | .bytes => .string "Bytes"
  | .timestamp => .string "Timestamp"

def ColumnDef.toJson (c : ColumnDef) : Json := struct
  [("name", .string c.name), ("col_type", c.colType.toJson), ("nullable", .bool c.nullable),
    ("primary_key", .bool c.primaryKey),
    ("references", Json.ofOption (fun r => Json.ofStrings [r.1, r.2]) c.references)]

def IndexDef.toJson (i : IndexDef) : Json := struct
  [("columns", Json.ofStrings i.columns), ("unique", .bool i.unique)]

def TableDef.toJson (t : TableDef) : Json := struct
  [("name", .string t.name), ("columns", .array (t.columns.map (ColumnDef.toJson struct))),
    ("indexes", .array (t.indexes.map (IndexDef.toJson struct)))]

def Schema.toJson (s : Schema) : Json := struct
  [("tables", .array (s.tables.map (TableDef.toJson struct)))]

end Tables

section Config

variable (keccak256 : Bytes → Hash32)

def Address.toJson (a : Address) : Json := .string (a.checksumHex keccak256)

def FactoryConfig.toJson (f : FactoryConfig) : Json := Json.ofFields
  [("factory_address", .array (f.factoryAddress.map (Address.toJson keccak256))),
    ("event_signature", .string f.eventSignature),
    ("address_parameter", .string f.addressParameter),
    ("start_block", Json.ofNat f.startBlock.toNat)]

def FilterConfig.toJson (f : FilterConfig) : Json := Json.ofFields
  [("event_name", .string f.eventName), ("args", .object f.args)]

def AddressConfig.toJson : AddressConfig → Json
  | .single address => Json.ofFields [("Single", address.toJson keccak256)]
  | .multiple addresses =>
    Json.ofFields [("Multiple", .array (addresses.map (Address.toJson keccak256)))]
  | .factory config => Json.ofFields [("Factory", config.toJson keccak256)]

def EndBlock.toJson : EndBlock → Json
  | .number n => Json.ofFields [("Number", Json.ofNat n.toNat)]
  | .latest => .string "Latest"

def Config.Contract.toJson (c : Config.Contract) : Json := Json.ofFields
  [("name", .string c.name), ("abi_json", .string c.abiJson),
    ("chain_names", Json.ofStrings c.chainNames), ("address", c.address.toJson keccak256),
    ("start_block", Json.ofNat c.startBlock.toNat),
    ("end_block", Json.ofOption EndBlock.toJson c.endBlock),
    ("filter", Json.ofOption (fun fs => .array (fs.map FilterConfig.toJson)) c.filter),
    ("include_transaction", .bool c.includeTransaction), ("include_trace", .bool c.includeTrace)]

def ChainConfig.toJson (c : ChainConfig) : Json := Json.ofFields
  [("name", .string c.name), ("chain_id", Json.ofNat c.chainId.toNat),
    ("rpc_http", .string c.rpcHttp), ("rpc_ws", Json.ofOption .string c.rpcWs),
    ("max_rpc_requests_per_second",
      Json.ofOption (fun n => Json.ofNat n.toNat) c.maxRpcRequestsPerSecond),
    ("poll_interval_ms", Json.ofOption (fun n => Json.ofNat n.toNat) c.pollIntervalMs),
    ("max_block_range", Json.ofOption (fun n => Json.ofNat n.toNat) c.maxBlockRange)]

def AccountConfig.toJson (a : AccountConfig) : Json := Json.ofFields
  [("name", .string a.name), ("chain_names", Json.ofStrings a.chainNames),
    ("address", a.address.toJson keccak256), ("start_block", Json.ofNat a.startBlock.toNat),
    ("include_transaction", .bool a.includeTransaction)]

def BlockIntervalConfig.toJson (b : BlockIntervalConfig) : Json := Json.ofFields
  [("name", .string b.name), ("chain_name", .string b.chainName),
    ("interval", Json.ofNat b.interval.toNat), ("start_block", Json.ofNat b.startBlock.toNat),
    ("end_block", Json.ofOption (fun n => Json.ofNat n.toNat) b.endBlock)]

def DatabaseConfig.toJson : DatabaseConfig → Json
  | .postgres connectionString schema poolMaxConnections =>
    Json.ofFields [("Postgres", Json.ofFields
      [("connection_string", .string connectionString), ("schema", .string schema),
        ("pool_max_connections", Json.ofNat poolMaxConnections.toNat)])]
  | .pglite directory =>
    Json.ofFields [("PGlite", Json.ofFields [("directory", .string directory)])]

def EventOrdering.toJson : EventOrdering → Json
  | .omnichain => .string "Omnichain"
  | .multichain => .string "Multichain"

def Config.toJson (config : Config) : Json := Json.ofFields
  [("chains", .array (config.chains.map ChainConfig.toJson)),
    ("contracts", .array (config.contracts.map (Config.Contract.toJson keccak256))),
    ("accounts", .array (config.accounts.map (AccountConfig.toJson keccak256))),
    ("block_intervals", .array (config.blockIntervals.map BlockIntervalConfig.toJson)),
    ("schema", config.schema.toJson Json.ofFields), ("database", config.database.toJson),
    ("ordering", config.ordering.toJson)]

end Config

namespace Json

mutual

/-- No key of an object has a quote. -/
def Quoteless : Json → Prop
  | .array items => QuotelessItems items
  | .object members => QuotelessMembers members
  | _ => True

def QuotelessItems : List Json → Prop
  | [] => True
  | v :: vs => v.Quoteless ∧ QuotelessItems vs

def QuotelessMembers : List Member → Prop
  | [] => True
  | .mk key value :: ms => '"' ∉ key.toList ∧ value.Quoteless ∧ QuotelessMembers ms

end

/-- A value of `serde_json` without a quote in a key. -/
structure Plain (v : Json) : Prop where
  wellFormed : v.WellFormed
  quoteless : v.Quoteless

theorem plain_null : Plain .null := ⟨trivial, trivial⟩

theorem plain_bool (b : Bool) : Plain (.bool b) := ⟨trivial, trivial⟩

theorem plain_string (s : String) : Plain (.string s) := ⟨trivial, trivial⟩

theorem plain_ofNat (n : ℕ) : Plain (ofNat n) := by
  refine ⟨⟨?_, ?_⟩, trivial⟩
  · intro h
    have hlist : Nat.toDigits 10 n = [] := by
      rw [← Nat.toList_repr]
      exact congrArg String.toList h
    exact Nat.toDigits_ne_nil hlist
  · intro c hc
    have hdigit : c.isDigit = true := by
      apply Nat.isDigit_of_mem_toDigits (n := n) (b := 10) (by omega) (by omega)
      rw [← Nat.toList_repr]
      exact hc
    unfold isNumeral
    rw [hdigit, Bool.true_or]

theorem plain_array {items : List Json} (h : ∀ v ∈ items, v.Plain) : Plain (.array items) := by
  constructor
  · show WellFormedItems items
    induction items with
    | nil => trivial
    | cons v vs ih =>
      exact ⟨(h v List.mem_cons_self).wellFormed,
        ih fun u hu => h u (List.mem_cons_of_mem v hu)⟩
  · show QuotelessItems items
    induction items with
    | nil => trivial
    | cons v vs ih =>
      exact ⟨(h v List.mem_cons_self).quoteless,
        ih fun u hu => h u (List.mem_cons_of_mem v hu)⟩

theorem plain_ofStrings (ss : List String) : Plain (ofStrings ss) := by
  apply plain_array
  intro v hv
  obtain ⟨s, _, rfl⟩ := List.mem_map.mp hv
  exact plain_string s

theorem plain_map {α : Type} {f : α → Json} {as : List α} (h : ∀ a ∈ as, (f a).Plain) :
    Plain (.array (as.map f)) := by
  apply plain_array
  intro v hv
  obtain ⟨a, ha, rfl⟩ := List.mem_map.mp hv
  exact h a ha

theorem plain_ofOption {α : Type} {f : α → Json} {o : Option α} (h : ∀ a ∈ o, (f a).Plain) :
    (ofOption f o).Plain := by
  cases o with
  | none => exact plain_null
  | some a => exact h a rfl

theorem mem_insert {key : String} {value : Json} {m : Member} {ms : List Member}
    (h : m ∈ insert key value ms) : m = .mk key value ∨ m ∈ ms := by
  induction ms with
  | nil => exact Or.inl (List.mem_singleton.mp h)
  | cons n ns ih =>
    obtain ⟨k, v⟩ := n
    unfold insert at h
    split_ifs at h
    · exact List.mem_cons.mp h
    · rcases List.mem_cons.mp h with hm | hm
      · exact Or.inl hm
      · exact Or.inr (List.mem_cons_of_mem _ hm)
    · rcases List.mem_cons.mp h with hm | hm
      · exact Or.inr (hm ▸ List.mem_cons_self)
      · exact (ih hm).imp_right (List.mem_cons_of_mem _)

theorem wellFormedMembers_insert {key : String} {value : Json} (hv : value.WellFormed)
    {ms : List Member} (h : WellFormedMembers ms) : WellFormedMembers (insert key value ms) := by
  induction ms with
  | nil => exact ⟨fun _ _ hm => absurd hm List.not_mem_nil, hv, trivial⟩
  | cons n ns ih =>
    obtain ⟨k, v⟩ := n
    obtain ⟨hk, hvalue, hns⟩ := h
    unfold insert
    split_ifs with hlt heq
    · refine ⟨?_, hv, hk, hvalue, hns⟩
      intro key' value' hm
      rcases List.mem_cons.mp hm with hm | hm
      · cases hm
        exact hlt
      · exact lt_trans hlt (hk key' value' hm)
    · subst heq
      exact ⟨hk, hv, hns⟩
    · refine ⟨?_, hvalue, ih hns⟩
      intro key' value' hm
      rcases mem_insert hm with hm | hm
      · cases hm
        exact lt_of_le_of_ne (not_lt.mp hlt) (Ne.symm heq)
      · exact hk key' value' hm

theorem quotelessMembers_insert {key : String} {value : Json} (hkey : '"' ∉ key.toList)
    (hv : value.Quoteless) {ms : List Member} (h : QuotelessMembers ms) :
    QuotelessMembers (insert key value ms) := by
  induction ms with
  | nil => exact ⟨hkey, hv, trivial⟩
  | cons n ns ih =>
    obtain ⟨k, v⟩ := n
    unfold insert
    split_ifs
    · exact ⟨hkey, hv, h⟩
    · exact ⟨hkey, hv, h.2.2⟩
    · exact ⟨h.1, h.2.1, ih h.2.2⟩

theorem plain_ofFields {fields : List (String × Json)}
    (hkeys : ((fields.map Prod.fst).all fun k => !k.toList.contains '"') = true)
    (hvalues : ∀ v ∈ fields.map Prod.snd, v.Plain) : (ofFields fields).Plain := by
  -- the induction is over the fields, from any map
  have hfold : ∀ ms : List Member, WellFormedMembers ms → QuotelessMembers ms →
      WellFormedMembers (fields.foldl (fun ms f => insert f.1 f.2 ms) ms) ∧
        QuotelessMembers (fields.foldl (fun ms f => insert f.1 f.2 ms) ms) := by
    induction fields with
    | nil => exact fun _ hwell hquote => ⟨hwell, hquote⟩
    | cons f fs ih =>
      intro ms hwell hquote
      rw [List.map_cons, List.all_cons, Bool.and_eq_true] at hkeys
      rw [List.map_cons, List.forall_mem_cons] at hvalues
      have hkey : '"' ∉ f.1.toList := by simpa using hkeys.1
      exact ih hkeys.2 hvalues.2 _ (wellFormedMembers_insert hvalues.1.wellFormed hwell)
        (quotelessMembers_insert hkey hvalues.1.quoteless hquote)
  exact ⟨(hfold [] trivial trivial).1, (hfold [] trivial trivial).2⟩

end Json

attribute [simp] Json.plain_null Json.plain_bool Json.plain_string Json.plain_ofNat
  Json.plain_ofStrings

theorem ColumnType.plain_toJson (t : ColumnType) : t.toJson.Plain := by
  cases t <;> exact Json.plain_string _

theorem ColumnDef.plain_toJson (c : ColumnDef) : (c.toJson Json.ofFields).Plain := by
  apply Json.plain_ofFields
  · simp
  · simp [ColumnType.plain_toJson, Json.plain_ofOption]

theorem IndexDef.plain_toJson (i : IndexDef) : (i.toJson Json.ofFields).Plain := by
  apply Json.plain_ofFields
  · simp
  · simp

theorem TableDef.plain_toJson (t : TableDef) : (t.toJson Json.ofFields).Plain := by
  have hcolumns := Json.plain_map fun c (_ : c ∈ t.columns) => ColumnDef.plain_toJson c
  have hindexes := Json.plain_map fun i (_ : i ∈ t.indexes) => IndexDef.plain_toJson i
  apply Json.plain_ofFields
  · simp
  · simp [hcolumns, hindexes]

theorem Schema.plain_toJson (s : Schema) : (s.toJson Json.ofFields).Plain := by
  have htables := Json.plain_map fun t (_ : t ∈ s.tables) => TableDef.plain_toJson t
  apply Json.plain_ofFields
  · simp
  · simp [htables]

/-- No argument of a filter has a key with a quote, at any depth. -/
def Config.Quoteless (config : Config) : Prop :=
  ∀ c ∈ config.contracts, ∀ fs ∈ c.filter, ∀ f ∈ fs, Json.QuotelessMembers f.args

section Config

variable (keccak256 : Bytes → Hash32)

theorem Address.plain_toJson (a : Address) : (a.toJson keccak256).Plain := Json.plain_string _

theorem FactoryConfig.plain_toJson (f : FactoryConfig) : (f.toJson keccak256).Plain := by
  have haddresses := Json.plain_map fun a (_ : a ∈ f.factoryAddress) =>
    Address.plain_toJson keccak256 a
  apply Json.plain_ofFields
  · simp
  · simp [haddresses]

theorem FilterConfig.plain_toJson {f : FilterConfig} (h : Json.QuotelessMembers f.args) :
    f.toJson.Plain := by
  have hargs : (Json.object f.args).Plain := ⟨f.wellFormed, h⟩
  apply Json.plain_ofFields
  · simp
  · simp [hargs]

theorem AddressConfig.plain_toJson (a : AddressConfig) : (a.toJson keccak256).Plain := by
  cases a with
  | single address =>
    apply Json.plain_ofFields
    · simp
    · simp [Address.plain_toJson]
  | multiple addresses =>
    have haddresses := Json.plain_map fun a (_ : a ∈ addresses) => Address.plain_toJson keccak256 a
    apply Json.plain_ofFields
    · simp
    · simp [haddresses]
  | factory config =>
    apply Json.plain_ofFields
    · simp
    · simp [FactoryConfig.plain_toJson]

theorem EndBlock.plain_toJson (e : EndBlock) : e.toJson.Plain := by
  cases e with
  | latest => exact Json.plain_string _
  | number n =>
    apply Json.plain_ofFields
    · simp
    · simp

theorem Config.Contract.plain_toJson {c : Config.Contract}
    (h : ∀ fs ∈ c.filter, ∀ f ∈ fs, Json.QuotelessMembers f.args) :
    (c.toJson keccak256).Plain := by
  have haddress := AddressConfig.plain_toJson keccak256 c.address
  have hend := Json.plain_ofOption fun e (_ : e ∈ c.endBlock) => EndBlock.plain_toJson e
  have hfilter : (Json.ofOption (fun fs => .array (fs.map FilterConfig.toJson)) c.filter).Plain := by
    apply Json.plain_ofOption
    intro fs hfs
    exact Json.plain_map fun f hf => FilterConfig.plain_toJson (h fs hfs f hf)
  apply Json.plain_ofFields
  · simp
  · simp [haddress, hend, hfilter]

theorem ChainConfig.plain_toJson (c : ChainConfig) : c.toJson.Plain := by
  apply Json.plain_ofFields
  · simp
  · simp [Json.plain_ofOption]

theorem AccountConfig.plain_toJson (a : AccountConfig) : (a.toJson keccak256).Plain := by
  apply Json.plain_ofFields
  · simp
  · simp [Address.plain_toJson]

theorem BlockIntervalConfig.plain_toJson (b : BlockIntervalConfig) : b.toJson.Plain := by
  apply Json.plain_ofFields
  · simp
  · simp [Json.plain_ofOption]

theorem DatabaseConfig.plain_toJson (d : DatabaseConfig) : d.toJson.Plain := by
  cases d with
  | postgres connectionString schema poolMaxConnections =>
    apply Json.plain_ofFields
    · simp
    · rw [List.map_singleton, List.forall_mem_singleton]
      apply Json.plain_ofFields
      · simp
      · simp
  | pglite directory =>
    apply Json.plain_ofFields
    · simp
    · rw [List.map_singleton, List.forall_mem_singleton]
      apply Json.plain_ofFields
      · simp
      · simp

theorem EventOrdering.plain_toJson (o : EventOrdering) : o.toJson.Plain := by
  cases o <;> exact Json.plain_string _

theorem Config.plain_toJson {config : Config} (h : config.Quoteless) :
    (config.toJson keccak256).Plain := by
  have hchains := Json.plain_map fun c (_ : c ∈ config.chains) => ChainConfig.plain_toJson c
  have hcontracts := Json.plain_map fun c (hc : c ∈ config.contracts) =>
    Config.Contract.plain_toJson keccak256 (h c hc)
  have haccounts := Json.plain_map fun a (_ : a ∈ config.accounts) =>
    AccountConfig.plain_toJson keccak256 a
  have hintervals := Json.plain_map fun b (_ : b ∈ config.blockIntervals) =>
    BlockIntervalConfig.plain_toJson b
  apply Json.plain_ofFields
  · simp
  · simp [hchains, hcontracts, haccounts, hintervals, Schema.plain_toJson,
      DatabaseConfig.plain_toJson, EventOrdering.plain_toJson]

end Config

end ForgeIndex
