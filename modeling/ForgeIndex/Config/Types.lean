import ForgeIndex.Abi.Parser
import ForgeIndex.Backfill.Planner
import ForgeIndex.Schema

/-!
# Configuration types

`forge-index-config`: the chains, contracts, accounts and tables of an application.
-/

namespace ForgeIndex

/-- A character of a number's text. -/
def Json.isNumeral (c : Char) : Bool := c.isDigit || "+-.eE".toList.contains c

mutual

/-- A value as `serde_json` keeps it: a number has a text, and the members of an object come in
the order of their keys, no key twice. -/
def Json.WellFormed : Json → Prop
  | .number text => text ≠ "" ∧ ∀ c ∈ text.toList, Json.isNumeral c
  | .array items => Json.WellFormedItems items
  | .object members => Json.WellFormedMembers members
  | _ => True

def Json.WellFormedItems : List Json → Prop
  | [] => True
  | v :: vs => v.WellFormed ∧ Json.WellFormedItems vs

def Json.WellFormedMembers : List Member → Prop
  | [] => True
  | .mk key value :: ms => (∀ key' value', Member.mk key' value' ∈ ms → key < key') ∧
      value.WellFormed ∧ Json.WellFormedMembers ms

end

structure FactoryConfig where
  factoryAddress : List Address
  eventSignature : String
  addressParameter : String
  startBlock : UInt64

/-- `FilterConfig`; the arguments by their keys. -/
structure FilterConfig where
  eventName : String
  args : List Member
  wellFormed : Json.WellFormedMembers args

inductive AddressConfig where
  | single (address : Address)
  | multiple (addresses : List Address)
  | factory (config : FactoryConfig)

inductive EndBlock where
  | number (n : UInt64)
  | latest
  deriving DecidableEq, Repr

/-- `ContractConfig`, with the fields that the planner does not read. -/
structure Config.Contract extends ContractConfig where
  abiJson : String
  chainNames : List String
  address : AddressConfig
  endBlock : Option EndBlock
  filter : Option (List FilterConfig)
  includeTransaction : Bool
  includeTrace : Bool

structure ChainConfig where
  name : String
  chainId : UInt64
  rpcHttp : String
  rpcWs : Option String
  maxRpcRequestsPerSecond : Option UInt32
  pollIntervalMs : Option UInt64
  maxBlockRange : Option UInt64
  deriving DecidableEq, Repr

structure AccountConfig where
  name : String
  chainNames : List String
  address : Address
  startBlock : UInt64
  includeTransaction : Bool

structure BlockIntervalConfig where
  name : String
  chainName : String
  interval : UInt64
  startBlock : UInt64
  endBlock : Option UInt64

inductive DatabaseConfig where
  | postgres (connectionString schema : String) (poolMaxConnections : UInt32)
  | pglite (directory : String)
  deriving DecidableEq, Repr

/-- `Ordering`. -/
inductive EventOrdering where
  | omnichain | multichain
  deriving DecidableEq, Repr

structure Config where
  chains : List ChainConfig
  contracts : List Config.Contract
  accounts : List AccountConfig
  blockIntervals : List BlockIntervalConfig
  schema : Schema
  database : DatabaseConfig
  ordering : EventOrdering

structure ConfigBuilder where
  chains : List ChainConfig := []
  contracts : List Config.Contract := []
  accounts : List AccountConfig := []
  blockIntervals : List BlockIntervalConfig := []
  schema : Option Schema := none
  database : Option DatabaseConfig := none
  ordering : EventOrdering := .multichain

namespace ConfigBuilder

def new : ConfigBuilder := {}

/-- `ConfigBuilder::chain`; the closure may set every field. -/
def addChain (b : ConfigBuilder) (name : String) (f : ChainConfig → ChainConfig) :
    ConfigBuilder :=
  let chain : ChainConfig :=
    { name, chainId := 0, rpcHttp := "", rpcWs := none, maxRpcRequestsPerSecond := none,
      pollIntervalMs := none, maxBlockRange := none }
  { b with chains := b.chains ++ [f chain] }

/-- `ConfigBuilder::contract`. -/
def addContract (b : ConfigBuilder) (name : String) (f : Config.Contract → Config.Contract) :
    ConfigBuilder :=
  let contract : Config.Contract :=
    { name, startBlock := 0, abiJson := "[]", chainNames := [], address := .multiple [],
      endBlock := none, filter := none, includeTransaction := false, includeTrace := false }
  { b with contracts := b.contracts ++ [f contract] }

/-- `ConfigBuilder::account`. -/
def addAccount (b : ConfigBuilder) (name : String) (f : AccountConfig → AccountConfig) :
    ConfigBuilder :=
  let account : AccountConfig :=
    { name, chainNames := [], address := Address.zero, startBlock := 0,
      includeTransaction := false }
  { b with accounts := b.accounts ++ [f account] }

/-- `ConfigBuilder::block_interval`. -/
def addBlockInterval (b : ConfigBuilder) (name : String)
    (f : BlockIntervalConfig → BlockIntervalConfig) : ConfigBuilder :=
  let bi : BlockIntervalConfig :=
    { name, chainName := "", interval := 1, startBlock := 0, endBlock := none }
  { b with blockIntervals := b.blockIntervals ++ [f bi] }

end ConfigBuilder

end ForgeIndex
