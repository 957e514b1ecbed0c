import ForgeIndex.Lib.Utf8
import ForgeIndex.Abi.Types

/-!
# The ABI parser

`forge-index-core/src/abi/parser.rs` and the signatures of `types.rs`.  The reader of JSON texts
and the hash come from libraries and are parameters.
-/

namespace ForgeIndex

mutual

/-- `serde_json::Value`. -/
inductive Json where
  | null
  | bool (b : Bool)
  | number (text : String)
  | string (s : String)
  | array (items : List Json)
  | object (members : List Member)

inductive Member where
  | mk (key : String) (value : Json)

end

namespace Json

def find (key : String) : List Member → Option Json
  | [] => none
  | .mk k v :: ms => if k = key then some v else find key ms

def get (key : String) : Json → Option Json
  | .object members => find key members
  | _ => none

def asStr : Json → Option String
  | .string s => some s
  | _ => none

def asBool : Json → Option Bool
  | .bool b => some b
  | _ => none

def asArray : Json → Option (List Json)
  | .array items => some items
  | _ => none

end Json

mutual

def AbiType.toSolString : AbiType → String
  | .uint bits => "uint" ++ toString bits
  | .int bits => "int" ++ toString bits
  | .address => "address"
  | .bool => "bool"
  | .fixedBytes n => "bytes" ++ toString n
  | .bytes => "bytes"
  | .string => "string"
  | .array inner => inner.toSolString ++ "[]"
  | .fixedArray inner n => inner.toSolString ++ "[" ++ toString n ++ "]"
  | .tuple params => "(" ++ ",".intercalate (AbiType.toSolStrings params) ++ ")"

def AbiType.toSolStrings : List AbiParam → List String
  | [] => []
  | .mk _ t _ :: ps => t.toSolString :: AbiType.toSolStrings ps

end

def AbiEvent.signatureString (name : String) (inputs : List AbiParam) : String :=
  name ++ "(" ++ ",".intercalate (AbiType.toSolStrings inputs) ++ ")"

def AbiEvent.computeSelector (keccak256 : Bytes → Hash32) (signature : String) : Hash32 :=
  keccak256 (Utf8.encode signature.toList)

/-- `str::parse::<usize>`. -/
def parseUsize (cs : List Char) : Option ℕ :=
  let digits := match cs with
    | '+' :: cs => cs
    | cs => cs
  if digits ≠ [] ∧ digits.all Char.isDigit then
    let n := digits.foldl (fun n c => 10 * n + (c.toNat - '0'.toNat)) 0
    if n < 2 ^ 64 then some n else none
  else none

/-- `s.strip_suffix("[]")`. -/
def stripBrackets (cs : List Char) : Option (List Char) :=
  match cs.reverse with
  | ']' :: '[' :: rest => some rest.reverse
  | _ => none

/-- The text before the last `[` and the number between it and a closing `]`. -/
def splitSize (cs : List Char) : Option (List Char × ℕ) :=
  match cs.reverse with
  | ']' :: rest =>
    match rest.span (· ≠ '[') with
    | (size, '[' :: inner) => (parseUsize size.reverse).map fun n => (inner.reverse, n)
    | _ => none
  | _ => none

/-- The last `match` of `parse_type_string`. -/
def parseElementary (cs : List Char) : Except AbiError AbiType :=
  if cs = "address".toList then .ok .address
  else if cs = "bool".toList then .ok .bool
  else if cs = "string".toList then .ok .string
  else if cs = "bytes".toList then .ok .bytes
  else if "uint".toList <+: cs then .ok (.uint ((parseUsize (cs.drop 4)).getD 256))
  else if "int".toList <+: cs then .ok (.int ((parseUsize (cs.drop 3)).getD 256))
  else if "bytes".toList <+: cs then
    match parseUsize (cs.drop 5) with
    | some n => .ok (.fixedBytes n)
    | none => .error (.unknownType (String.ofList cs))
  else .error (.unknownType (String.ofList cs))

/-- `parse_type_string` on a text of at most `fuel` characters. -/
def parseTypeChars : ℕ → List Char → Except AbiError AbiType
  | 0, cs => parseElementary cs
  | fuel + 1, cs =>
    match stripBrackets cs with
    | some inner => do
      let elem ← parseTypeChars fuel inner
      .ok (.array elem)
    | none =>
      match splitSize cs with
      | some (inner, size) => do
        let elem ← parseTypeChars fuel inner
        .ok (.fixedArray elem size)
      | none => parseElementary cs

def parseTypeString (s : String) : Except AbiError AbiType := parseTypeChars s.length s.toList

mutual

def parseParam : Json → Except AbiError AbiParam
  | .object members => do
    let name := ((Json.find "name" members).bind Json.asStr).getD ""
    let indexed := ((Json.find "indexed" members).bind Json.asBool).getD false
    match (Json.find "type" members).bind Json.asStr with
    | none => .error (.parseError "param missing type")
    | some typeStr =>
      if typeStr = "tuple" ∨ typeStr = "tuple[]" then do
        let params ← parseComponents members
        if typeStr = "tuple[]" then .ok (.mk name (.array (.tuple params)) indexed)
        else .ok (.mk name (.tuple params) indexed)
      else do
        let t ← parseTypeString typeStr
        .ok (.mk name t indexed)
  | _ => .error (.parseError "param missing type")

/-- The parameters under `components`, none where that is no array. -/
def parseComponents : List Member → Except AbiError (List AbiParam)
  | [] => .ok []
  | .mk key value :: ms => if key = "components" then parseItems value else parseComponents ms

def parseItems : Json → Except AbiError (List AbiParam)
  | .array items => parseParams items
  | _ => .ok []

def parseParams : List Json → Except AbiError (List AbiParam)
  | [] => .ok []
  | item :: items => do
    let p ← parseParam item
    let ps ← parseParams items
    .ok (p :: ps)

end

/-- The parameters under a key, none where that is no array. -/
def paramsAt (item : Json) (key : String) : Except AbiError (List AbiParam) :=
  parseParams (((item.get key).bind Json.asArray).getD [])

def parseEvent (keccak256 : Bytes → Hash32) (item : Json) : Except AbiError AbiEvent :=
  match (item.get "name").bind Json.asStr with
  | none => .error (.parseError "event missing name")
  | some name => do
    let inputs ← paramsAt item "inputs"
    let signature := AbiEvent.signatureString name inputs
    .ok ⟨name, signature, AbiEvent.computeSelector keccak256 signature, inputs⟩

def parseFunction (item : Json) : Except AbiError AbiFunction :=
  match (item.get "name").bind Json.asStr with
  | none => .error (.parseError "function missing name")
  | some name => do
    let inputs ← paramsAt item "inputs"
    let outputs ← paramsAt item "outputs"
    .ok ⟨name, inputs, outputs,
      ((item.get "stateMutability").bind Json.asStr).getD "nonpayable"⟩

/-- The loop of `parse_abi`; other items are skipped. -/
def parseAbiItems (keccak256 : Bytes → Hash32) : List Json → ParsedAbi → Except AbiError ParsedAbi
  | [], abi => .ok abi
  | item :: items, abi =>
    match ((item.get "type").bind Json.asStr).getD "" with
    | "event" => do
      let event ← parseEvent keccak256 item
      parseAbiItems keccak256 items { abi with events := abi.events ++ [event] }
    | "function" => do
      let function ← parseFunction item
      parseAbiItems keccak256 items { abi with functions := abi.functions ++ [function] }
    | _ => parseAbiItems keccak256 items abi

/-- `parse_abi`, for a JSON reader that gives the array or its own error. -/
def parseAbi (fromStr : String → Except String (List Json)) (keccak256 : Bytes → Hash32)
    (json : String) : Except AbiError ParsedAbi :=
  match fromStr json with
  | .error e => .error (.parseError e)
  | .ok items => parseAbiItems keccak256 items ⟨[], []⟩

end ForgeIndex
