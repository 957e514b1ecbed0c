import ForgeIndex.Lib.BigEndian
import ForgeIndex.Lib.Utf8
import ForgeIndex.Abi.Types

/-!
# The log decoder

`forge-index-core/src/abi/decoder.rs`.  `usize` has 64 bits.  A step that overflows, slices out of
bounds, shifts by the width of the word or asks for memory that it does not get ends the decoding
with a fault; what the process does from there on (panic, wrap or abort) is left open.
-/

namespace ForgeIndex

inductive Fault where
  | overflow | slice | shift | capacity
  deriving DecidableEq, Repr

/-- Why a decoding did not finish. -/
inductive Stop where
  | err (e : AbiError)
  | fault (f : Fault)
  deriving DecidableEq, Repr

abbrev Decode := Except Stop

/-- `a + b` on `usize`. -/
def add (a b : ℕ) : Decode ℕ :=
  if a + b < 2 ^ 64 then .ok (a + b) else .error (.fault .overflow)

/-- `a - b` on `usize`. -/
def sub (a b : ℕ) : Decode ℕ := if b ≤ a then .ok (a - b) else .error (.fault .overflow)

/-- `a * b` on `usize`. -/
def mul (a b : ℕ) : Decode ℕ :=
  if a * b < 2 ^ 64 then .ok (a * b) else .error (.fault .overflow)

/-- `&data[lo..hi]`. -/
def slice (data : Bytes) (lo hi : ℕ) : Decode Bytes :=
  if lo ≤ hi ∧ hi ≤ data.length then .ok ((data.drop lo).take (hi - lo))
  else .error (.fault .slice)

/-- Which vectors of decoded parameters a process gets.  A parameter takes 32 bytes, and no vector
takes more than `isize::MAX`. -/
structure Allocator where
  grants : ℕ → Bool
  bounded : ∀ n, grants n = true → 32 * n < 2 ^ 63

/-- Every vector that can be asked for. -/
def Allocator.roomy : Allocator where
  grants n := 32 * n < 2 ^ 63
  bounded _ h := of_decide_eq_true h

/-- Vectors with no more elements than the data has words. -/
def Allocator.within (data : Bytes) : Allocator where
  grants n := 32 * n ≤ data.length ∧ 32 * n < 2 ^ 63
  bounded _ h := (of_decide_eq_true h).2

/-- `Vec::with_capacity(n)`. -/
def withCapacity (a : Allocator) (n : ℕ) : Decode Unit :=
  if a.grants n = true then .ok () else .error (.fault .capacity)

def mismatch {α : Type} (message : String) : Decode α := .error (.err (.decodeMismatch message))

@[simp] theorem ok_bind {α β : Type} (a : α) (f : α → Decode β) :
    (Except.ok a : Decode α) >>= f = f a := rfl

@[simp] theorem error_bind {α β : Type} (e : Stop) (f : α → Decode β) :
    (Except.error e : Decode α) >>= f = .error e := rfl

theorem bind_eq_ok {α β : Type} {x : Decode α} {f : α → Decode β} {b : β} :
    x >>= f = .ok b ↔ ∃ a, x = .ok a ∧ f a = .ok b := by
  cases x with
  | ok a => simp
  | error e =>
    constructor
    · intro h
      cases h
    · rintro ⟨a, h, -⟩
      cases h

theorem add_of_lt {a b : ℕ} (h : a + b < 2 ^ 64) : add a b = .ok (a + b) := if_pos h

theorem sub_of_le {a b : ℕ} (h : b ≤ a) : sub a b = .ok (a - b) := if_pos h

theorem mul_of_lt {a b : ℕ} (h : a * b < 2 ^ 64) : mul a b = .ok (a * b) := if_pos h

theorem slice_of_le {data : Bytes} {lo hi : ℕ} (h : lo ≤ hi ∧ hi ≤ data.length) :
    slice data lo hi = .ok ((data.drop lo).take (hi - lo)) := if_pos h

theorem withCapacity_of_grants {a : Allocator} {n : ℕ} (h : a.grants n = true) :
    withCapacity a n = .ok () := if_pos h

theorem Allocator.roomy_grants {n : ℕ} (h : 32 * n < 2 ^ 63) : roomy.grants n = true :=
  decide_eq_true h

theorem withCapacity_roomy {n : ℕ} (h : 32 * n < 2 ^ 63) : withCapacity .roomy n = .ok () :=
  withCapacity_of_grants (Allocator.roomy_grants h)

def readSlot (data : Bytes) (offset : ℕ) : Decode Bytes := do
  let last ← add offset 32
  if last > data.length then
    mismatch ("data too short: need " ++ toString 32 ++ " bytes at offset " ++ toString offset ++
      ", have " ++ toString data.length)
  else slice data offset last

def u256ToUsize (slot : Bytes) : Decode ℕ :=
  if (slot.take 24).any fun b => b ≠ 0 then mismatch "offset too large"
  else .ok (BigEndian.value (slot.drop 24))

def paddedLen (len : ℕ) : Decode ℕ := mul ((len + 31) / 32) 32

def decodeUint (slot : Bytes) (bits : ℕ) : DecodedParam :=
  if bits ≤ 128 then .uint (BigEndian.value (slot.drop 16))
  else .uint256 (toString (BigEndian.value slot))

def decodeInt (slot : Bytes) (bits : ℕ) : Decode DecodedParam :=
  if bits ≤ 128 then do
    let raw := BitVec.ofNat 128 (BigEndian.value (slot.drop 16))
    let shift ← sub bits 1
    if raw &&& (1 <<< shift) ≠ 0 then
      if bits < 128 then .ok (.int (raw ||| (BitVec.allOnes 128 <<< bits)).toInt)
      else .error (.fault .shift)
    else .ok (.int raw.toInt)
  else
    let n := BigEndian.value slot
    if (slot.headD 0) &&& 0x80 ≠ 0 then .ok (.int256 ("-" ++ toString (2 ^ 256 - n)))
    else .ok (.int256 (toString n))

/-- `Address([..])` of the last twenty bytes of a word. -/
def addressOfSlot (slot : Bytes) : Address :=
  if h : (slot.drop 12).length = 20 then ⟨slot.drop 12, h⟩ else Address.zero

def decodeIndexedParam (t : AbiType) (topic : Hash32) : Decode DecodedParam :=
  match t with
  | .address => .ok (.address (addressOfSlot topic.bytes))
  | .bool => .ok (.bool (topic.bytes.getD 31 0 ≠ 0))
  | .uint bits => .ok (decodeUint topic.bytes bits)
  | .int bits => decodeInt topic.bytes bits
  | .fixedBytes n => .ok (.fixedBytes (topic.bytes.take (min n 32)))
  | _ => .ok (.fixedBytes topic.bytes)

/-- The length word at `absOffset` and the bytes after it, cut at the end of the data. -/
def decodeBytesAt (data : Bytes) (absOffset : ℕ) : Decode (Bytes × ℕ) := do
  let lenSlot ← readSlot data absOffset
  let len ← u256ToUsize lenSlot
  let start ← add absOffset 32
  let last ← add start len
  let value ← slice data start (min last data.length)
  let padded ← paddedLen len
  let size ← add 32 padded
  .ok (value, size)

def fromUtf8Lossy (b : Bytes) : String := String.ofList (Utf8.decodeLossy b)

/-- The loop over `n` elements from `pos` on. -/
def decodeItems (item : ℕ → Decode (DecodedParam × ℕ)) : ℕ → ℕ → Decode (List DecodedParam × ℕ)
  | 0, pos => .ok ([], pos)
  | n + 1, pos => do
    let (value, consumed) ← item pos
    let next ← add pos consumed
    let (values, last) ← decodeItems item n next
    .ok (value :: values, last)

/-- The length word at `absOffset` and that many elements after it. -/
def decodeArrayAt (a : Allocator) (item : ℕ → Decode (DecodedParam × ℕ)) (data : Bytes)
    (absOffset : ℕ) : Decode (List DecodedParam × ℕ) := do
  let lenSlot ← readSlot data absOffset
  let len ← u256ToUsize lenSlot
  withCapacity a len
  let pos ← add absOffset 32
  let (items, last) ← decodeItems item len pos
  let size ← sub last absOffset
  .ok (items, size)

/-- The offset word at `headOffset`. -/
def readOffset (data : Bytes) (headOffset : ℕ) : Decode ℕ := do
  let headSlot ← readSlot data headOffset
  u256ToUsize headSlot

/-- Where a dynamic value starts: at the offset that stands in its head, or right here. -/
def startOf (abs : Bool) (data : Bytes) (offset : ℕ) : Decode ℕ :=
  if abs then .ok offset else readOffset data offset

mutual

/-- `decode_param_from_data`, and with `abs` `decode_param_from_data_at_abs`, which takes bytes,
strings and arrays to start at the offset it is given and leaves the rest to the former. -/
def decodeParam (a : Allocator) (abs : Bool) (data : Bytes) :
    AbiType → ℕ → Decode (DecodedParam × ℕ)
  | .uint bits, offset => do
    let slot ← readSlot data offset
    .ok (decodeUint slot bits, 32)
  | .int bits, offset => do
    let slot ← readSlot data offset
    let value ← decodeInt slot bits
    .ok (value, 32)
  | .address, offset => do
    let slot ← readSlot data offset
    .ok (.address (addressOfSlot slot), 32)
  | .bool, offset => do
    let slot ← readSlot data offset
    .ok (.bool (slot.getD 31 0 ≠ 0), 32)
  | .fixedBytes n, offset => do
    let slot ← readSlot data offset
    .ok (.fixedBytes (slot.take (min n 32)), 32)
  | .bytes, offset => do
    let start ← startOf abs data offset
    let (value, size) ← decodeBytesAt data start
    .ok (.bytes value, if abs then size else 32)
  | .string, offset => do
    let start ← startOf abs data offset
    let (value, size) ← decodeBytesAt data start
    .ok (.string (fromUtf8Lossy value), if abs then size else 32)
  | .array inner, offset => do
    let start ← startOf abs data offset
    let (items, size) ← decodeArrayAt a (decodeParam a false data inner) data start
    .ok (.array items, if abs then size else 32)
  | .fixedArray inner len, offset =>
    if inner.isDynamic then do
      let start ← readOffset data offset
      withCapacity a len
      let (items, last) ← decodeItems (decodeParam a false data inner) len start
      let _ ← sub last start
      .ok (.array items, 32)
    else do
      withCapacity a len
      let (items, _) ← decodeItems (decodeParam a false data inner) len offset
      let size ← mul 32 len
      .ok (.array items, size)
  | .tuple params, offset => do
    if AbiType.anyDynamic params then
      let start ← readOffset data offset
      withCapacity a params.length
      let (items, last) ← decodeParams a data params start start
      let _ ← sub last start
      .ok (.tuple items, 32)
    else
      withCapacity a params.length
      let (items, last) ← decodeParams a data params offset offset
      let size ← sub last offset
      .ok (.tuple items, size)

/-- The loop of `decode_tuple_at`. -/
def decodeParams (a : Allocator) (data : Bytes) :
    List AbiParam → ℕ → ℕ → Decode (List DecodedParam × ℕ)
  | [], _, pos => .ok ([], pos)
  | .mk _ t _ :: ps, base, pos =>
    if t.isDynamic then do
      let relOffset ← readOffset data pos
      let absOffset ← add base relOffset
      let (value, _) ← decodeParam a true data t absOffset
      let next ← add pos 32
      let (values, last) ← decodeParams a data ps base next
      .ok (value :: values, last)
    else do
      let (value, consumed) ← decodeParam a false data t pos
      let next ← add pos consumed
      let (values, last) ← decodeParams a data ps base next
      .ok (value :: values, last)

end

def decodeParamFromData (a : Allocator) (t : AbiType) (data : Bytes) (offset : ℕ) :
    Decode (DecodedParam × ℕ) :=
  decodeParam a false data t offset

mutual

/-- How far the decoder moves on after a value: a fixed array counts as one word for each element,
whatever the element takes. -/
def AbiType.consumed : AbiType → ℕ
  | .fixedArray inner len => if inner.isDynamic then 32 else 32 * len
  | .tuple params => if AbiType.anyDynamic params then 32 else AbiType.consumedAll params
  | .uint _ => 32
  | .int _ => 32
  | .address => 32
  | .bool => 32
  | .fixedBytes _ => 32
  | .bytes => 32
  | .string => 32
  | .array _ => 32

def AbiType.consumedAll : List AbiParam → ℕ
  | [] => 0
  | .mk _ t _ :: ps => t.consumed + AbiType.consumedAll ps

end

/-- The types that `decode_param_from_data_at_abs` reads itself. -/
def AbiType.isDirect : AbiType → Bool
  | .bytes => true
  | .string => true
  | .array _ => true
  | _ => false

theorem AbiType.consumed_of_isDynamic {t : AbiType} (h : t.isDynamic = true) :
    t.consumed = 32 := by
  cases t with
  | fixedArray inner len => exact if_pos h
  | tuple params => exact if_pos h
  | _ => rfl

/-- `LogDecoder`: the event of a selector. -/
structure LogDecoder where
  events : Hash32 → Option AbiEvent

/-- `LogDecoder::new`; a later event takes the place of an earlier one. -/
def LogDecoder.new (abi : ParsedAbi) : LogDecoder where
  events := abi.events.foldl (fun m e => Function.update m e.selector (some e)) fun _ => none

/-- The loop over the inputs: the parameters so far, the next topic and the place in the data. -/
def decodeInputs (a : Allocator) (log : Log) : List AbiParam → IndexMap String DecodedParam → ℕ → ℕ →
    Decode (IndexMap String DecodedParam)
  | [], params, _, _ => .ok params
  | .mk name t indexed :: inputs, params, topicIdx, dataOffset =>
    if indexed then
      match log.topics[topicIdx]? with
      | none => mismatch ("missing topic for indexed param '" ++ name ++ "'")
      | some topic => do
        let value ← decodeIndexedParam t topic
        decodeInputs a log inputs (params.insert name value) (topicIdx + 1) dataOffset
    else do
      let (value, consumed) ← decodeParamFromData a t log.data dataOffset
      let next ← add dataOffset consumed
      decodeInputs a log inputs (params.insert name value) topicIdx next

/-- `LogDecoder::decode` in a process that gets its memory from `a`. -/
def LogDecoder.decodeWith (a : Allocator) (d : LogDecoder) (log : Log) (contractName : String) :
    Decode DecodedEvent :=
  match log.topics with
  | [] => .error (.err .invalidSelector)
  | selector :: _ =>
    match d.events selector with
    | none => .error (.err .invalidSelector)
    | some event => do
      let params ← decodeInputs a log event.inputs IndexMap.empty 1 0
      .ok ⟨event.name, contractName, params, log⟩

/-- `LogDecoder::decode`, with all the memory it asks for. -/
def LogDecoder.decode (d : LogDecoder) (log : Log) (contractName : String) : Decode DecodedEvent :=
  d.decodeWith .roomy log contractName

end ForgeIndex
