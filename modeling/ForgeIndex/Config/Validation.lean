import ForgeIndex.Config.Types

/-!
# The checks of a configuration

`forge-index-config/src/validation.rs` and `ConfigBuilder::build`.  The reader of JSON texts is a
parameter.
-/

namespace ForgeIndex

/-- `ForgeError`, as far as the builder and the runner give it. -/
inductive ForgeError where
  | config (message : String)
  | abiDecode (message : String)
  | rpc (chainId : UInt64) (message : String)
  deriving DecidableEq, Repr

/-- "Every chain has a non-empty rpc_http URL". -/
def rpcErrors (chains : List ChainConfig) : List String :=
  (chains.filter fun c => c.rpcHttp = "").map fun c =>
    "Chain '" ++ c.name ++ "' has an empty rpc_http URL"

/-- "Every chain has a unique chain_id": the ids seen so far, and the chains to come. -/
def chainIdErrors : List UInt64 → List ChainConfig → List String
  | _, [] => []
  | seen, c :: cs =>
    if c.chainId ∈ seen then ("Duplicate chain_id: " ++ toString c.chainId) :: chainIdErrors seen cs
    else chainIdErrors (c.chainId :: seen) cs

/-- The names of one contract or account that no chain has. -/
def unknownChains (known : List String) (kind name : String) (chainNames : List String) :
    List String :=
  (chainNames.filter fun n => n ∉ known).map fun n =>
    kind ++ " '" ++ name ++ "' references unknown chain '" ++ n ++ "'"

/-- The match on the database. -/
def databaseErrors : DatabaseConfig → List String
  | .postgres connectionString _ _ =>
    if connectionString = "" then ["Postgres connection_string is empty"] else []
  | .pglite _ => []

namespace Config

def chainNames (config : Config) : List String := config.chains.map ChainConfig.name

variable (isJson : String → Bool)

/-- `validate`: the messages, in order. -/
def validate (config : Config) : List String :=
  rpcErrors config.chains ++
  chainIdErrors [] config.chains ++
  (config.contracts.flatMap fun c =>
    unknownChains config.chainNames "Contract" c.name c.chainNames) ++
  ((config.contracts.filter fun c => !isJson c.abiJson).map fun c =>
    "Contract '" ++ c.name ++ "' has invalid ABI JSON") ++
  (config.accounts.flatMap fun a =>
    unknownChains config.chainNames "Account" a.name a.chainNames) ++
  (config.blockIntervals.flatMap fun bi =>
    unknownChains config.chainNames "BlockInterval" bi.name [bi.chainName]) ++
  validateSchema config.schema ++
  databaseErrors config.database

end Config

def ConfigBuilder.build (isJson : String → Bool) (b : ConfigBuilder) : Except ForgeError Config :=
  let config : Config :=
    { chains := b.chains, contracts := b.contracts, accounts := b.accounts,
      blockIntervals := b.blockIntervals, schema := b.schema.getD ⟨[]⟩,
      database := b.database.getD (.postgres "" "public" 10), ordering := b.ordering }
  let errors := config.validate isJson
  if errors.isEmpty then .ok config else .error (.config ("; ".intercalate errors))

theorem nodup_of_chainIdErrors {chains : List ChainConfig} {seen : List UInt64}
    (h : chainIdErrors seen chains = []) :
    (chains.map ChainConfig.chainId).Nodup ∧ ∀ c ∈ chains, c.chainId ∉ seen := by
  induction chains generalizing seen with
  | nil => simp
  | cons c cs ih =>
    unfold chainIdErrors at h
    split_ifs at h with hc
    obtain ⟨hnodup, hfresh⟩ := ih h
    constructor
    · rw [List.map_cons, List.nodup_cons]
      refine ⟨?_, hnodup⟩
      intro hmem
      obtain ⟨c', hc', heq⟩ := List.mem_map.mp hmem
      exact hfresh c' hc' (heq ▸ List.mem_cons_self)
    · intro c' hc' hseen
      rcases List.mem_cons.mp hc' with rfl | hc'
      · exact hc hseen
      · exact hfresh c' hc' (List.mem_cons_of_mem _ hseen)

theorem ConfigBuilder.build_ok {isJson : String → Bool} {b : ConfigBuilder} {config : Config}
    (h : b.build isJson = .ok config) : config.validate isJson = [] := by
  unfold build at h
  dsimp only at h
  split_ifs at h with herrors
  cases h
  exact List.isEmpty_iff.mp herrors

theorem Config.nodup_chainIds {isJson : String → Bool} {config : Config}
    (h : config.validate isJson = []) : (config.chains.map ChainConfig.chainId).Nodup := by
  simp only [Config.validate, List.append_eq_nil_iff] at h
  exact (nodup_of_chainIdErrors h.1.1.1.1.1.1.2).1

theorem Config.exists_chain {isJson : String → Bool} {config : Config}
    (h : config.validate isJson = []) {c : Config.Contract} (hc : c ∈ config.contracts)
    {name : String} (hname : name ∈ c.chainNames) :
    ∃ chain ∈ config.chains, chain.name = name := by
  simp only [Config.validate, List.append_eq_nil_iff] at h
  have hcontract := List.flatMap_eq_nil_iff.mp h.1.1.1.1.1.2 c hc
  have hfilter := List.filter_eq_nil_iff.mp (List.map_eq_nil_iff.mp hcontract) name hname
  have hknown : name ∈ config.chainNames := by simpa using hfilter
  exact List.mem_map.mp hknown

/-- A chain at a local node, with this block range. -/
def localChain (maxBlockRange : Option UInt64) : ChainConfig where
  name := "mainnet"
  chainId := 1
  rpcHttp := "http://localhost:8545"
  rpcWs := none
  maxRpcRequestsPerSecond := none
  pollIntervalMs := none
  maxBlockRange := maxBlockRange

/-- The chain with these contracts, over a local database. -/
def localBuilder (maxBlockRange : Option UInt64) (contracts : List Config.Contract) :
    ConfigBuilder :=
  { contracts.foldl (fun b c => b.addContract c.name fun _ => c)
      (ConfigBuilder.new.addChain "mainnet" fun _ => localChain maxBlockRange) with
    database := some (.postgres "postgres://localhost/test" "public" 10) }

def localConfig (maxBlockRange : Option UInt64) (contracts : List Config.Contract) : Config where
  chains := [localChain maxBlockRange]
  contracts := contracts
  accounts := []
  blockIntervals := []
  schema := ⟨[]⟩
  database := .postgres "postgres://localhost/test" "public" 10
  ordering := .multichain

end ForgeIndex
