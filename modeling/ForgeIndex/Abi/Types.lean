import ForgeIndex.Lib.IndexMap
import ForgeIndex.Types

/-!
# ABI types and decoded values

`forge-index-core/src/abi/types.rs` and the value types of `decoder.rs`.
-/

namespace ForgeIndex

mutual

inductive AbiType where
  | uint (bits : ℕ)
  | int (bits : ℕ)
  | address
  | bool
  | fixedBytes (n : ℕ)
  | bytes
  | string
  | array (inner : AbiType)
  | fixedArray (inner : AbiType) (len : ℕ)
  | tuple (params : List AbiParam)

inductive AbiParam where
  | mk (name : String) (abiType : AbiType) (indexed : Bool)

end

namespace AbiParam

def name : AbiParam → String
  | .mk n _ _ => n

def abiType : AbiParam → AbiType
  | .mk _ t _ => t

def indexed : AbiParam → Bool
  | .mk _ _ i => i

@[simp] theorem name_mk (n : String) (t : AbiType) (i : Bool) : (mk n t i).name = n := rfl
@[simp] theorem abiType_mk (n : String) (t : AbiType) (i : Bool) : (mk n t i).abiType = t := rfl
@[simp] theorem indexed_mk (n : String) (t : AbiType) (i : Bool) : (mk n t i).indexed = i := rfl

end AbiParam

mutual

def AbiType.isDynamic : AbiType → Bool
  | .bytes => true
  | .string => true
  | .array _ => true
  | .fixedArray inner _ => inner.isDynamic
  | .tuple params => AbiType.anyDynamic params
  | .uint _ => false
  | .int _ => false
  | .address => false
  | .bool => false
  | .fixedBytes _ => false

/-- `params.iter().any(|p| p.abi_type.is_dynamic())`. -/
def AbiType.anyDynamic : List AbiParam → Bool
  | [] => false
  | .mk _ t _ :: ps => t.isDynamic || AbiType.anyDynamic ps

end

structure AbiEvent where
  name : String
  signature : String
  selector : Hash32
  inputs : List AbiParam

structure AbiFunction where
  name : String
  inputs : List AbiParam
  outputs : List AbiParam
  stateMutability : String

structure ParsedAbi where
  events : List AbiEvent
  functions : List AbiFunction

inductive AbiError where
  | parseError (message : String)
  | unknownType (name : String)
  | invalidSelector
  | decodeMismatch (message : String)
  deriving DecidableEq, Repr

inductive DecodedParam where
  | uint (n : ℕ)
  | uint256 (decimal : String)
  | int (i : Int)
  | int256 (decimal : String)
  | address (a : Address)
  | bool (b : Bool)
  | bytes (b : Bytes)
  | fixedBytes (b : Bytes)
  | string (s : String)
  | array (items : List DecodedParam)
  | tuple (items : List DecodedParam)

structure DecodedEvent where
  name : String
  contractName : String
  params : IndexMap String DecodedParam
  rawLog : Log

end ForgeIndex
