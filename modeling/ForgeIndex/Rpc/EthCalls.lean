import Mathlib.Data.List.Find
import ForgeIndex.Lib.BigEndian
import ForgeIndex.Lib.FirstWins
import ForgeIndex.Lib.Utf8
import ForgeIndex.Rpc.BlockCache

/-!
# The cache of `eth_call`

`forge-index-rpc`: `eth_call_key` of `cache/keys.rs` and the `eth_call` part of `cache/store.rs`.
SHA-256 is a parameter.
-/

namespace ForgeIndex

/-- A row of `ponder_sync.eth_calls`. -/
structure CallRow where
  chainId : Int64
  callKey : String
  result : Bytes
  blockNumber : Int64

/-- `PRIMARY KEY (chain_id, call_key)`. -/
def CallRow.key (r : CallRow) : Int64 × String := (r.chainId, r.callKey)

/-- The cache database with its calls. -/
structure CallCache where
  rpc : RpcCache
  calls : List CallRow

def CallCache.empty : CallCache := ⟨RpcCache.empty, []⟩

/-- A process that leaves the calls alone. -/
def CallCache.onRpc {ε α : Type} (m : Proc RpcCache ε α) : Proc CallCache ε α := fun w =>
  let r := m w.rpc
  (r.1, { w with rpc := r.2 })

section Store

variable (keccak256 sha256 : Bytes → Hash32)

/-- The bytes that go into the hasher. -/
def callPreimage (toAddress : Address) (data : Bytes) (blockNumber : UInt64) : Bytes :=
  Utf8.encode (toAddress.checksumHex keccak256).toList ++ data ++ BigEndian.bytes 8 blockNumber.toNat

def ethCallKey (toAddress : Address) (data : Bytes) (blockNumber : UInt64) : String :=
  String.ofList (Hex.encode (sha256 (callPreimage keccak256 toAddress data blockNumber)).bytes)

variable (fate : ℕ → Fate)

namespace RpcCacheStore

def getEthCall (chainId : UInt64) (toAddress : Address) (data : Bytes) (block : UInt64) :
    Proc CallCache SqlxError (Option Bytes) := do
  let callKey := ethCallKey keccak256 sha256 toAddress data block
  CallCache.onRpc (sendCache fate)
  let w ← Proc.get
  pure ((w.calls.find? fun r => r.key = (chainId.toInt64, callKey)).map CallRow.result)

/-- `RpcCacheStore::put_eth_call`, an `INSERT ... ON CONFLICT DO NOTHING`. -/
def putEthCall (chainId : UInt64) (toAddress : Address) (data : Bytes) (block : UInt64)
    (result : Bytes) : Proc CallCache SqlxError Unit := do
  let callKey := ethCallKey keccak256 sha256 toAddress data block
  CallCache.onRpc (sendCache fate)
  Proc.modify fun w => { w with
    calls := FirstWins.insertNew (fun r s => decide (s.key = r.key)) w.calls
      ⟨chainId.toInt64, callKey, result, block.toInt64⟩ }

end RpcCacheStore

end Store

section Keys

variable {keccak256 sha256 : Bytes → Hash32}

theorem digit_toNat_lt {n : ℕ} (h : n < 16) : (Hex.digit n).toNat < 128 := by
  interval_cases n <;> decide

theorem encode_toNat_lt (bs : Bytes) : ∀ c ∈ Hex.encode bs, c.toNat < 128 := by
  intro c hc
  unfold Hex.encode at hc
  obtain ⟨b, -, hb⟩ := List.mem_flatMap.mp hc
  have hlt := b.toNat_lt
  rcases List.mem_cons.mp hb with rfl | hb
  · exact digit_toNat_lt (by omega)
  · rw [List.mem_singleton.mp hb]
    exact digit_toNat_lt (by omega)

theorem upper_toNat_lt {c : Char} (h : c.toNat < 128) : (Hex.upper c).toNat < 128 := by
  unfold Hex.upper
  split_ifs
  · have hvalid : (c.toNat - 32).isValidChar := .inl (by omega)
    have hnat : (Char.ofNat (c.toNat - 32)).toNat = c.toNat - 32 := by
      unfold Char.ofNat
      rw [dif_pos hvalid]
      rfl
    omega
  · exact h

theorem length_addressBytes (a : Address) :
    (Utf8.encode (a.checksumHex keccak256).toList).length = 42 := by
  rw [Utf8.length_encode_of_ascii]
  · unfold Address.checksumHex
    rw [String.toList_ofList, List.length_cons, List.length_cons, List.length_map,
      List.length_zipIdx, Hex.length_encode, a.size]
  · intro c hc
    unfold Address.checksumHex at hc
    rw [String.toList_ofList] at hc
    rcases List.mem_cons.mp hc with rfl | hc
    · decide
    · rcases List.mem_cons.mp hc with rfl | hc
      · decide
      · obtain ⟨p, hp, rfl⟩ := List.mem_map.mp hc
        have hlt := encode_toNat_lt a.bytes p.1 (List.fst_mem_of_mem_zipIdx hp)
        split_ifs
        · exact upper_toNat_lt hlt
        · exact hlt

/-- The hashed bytes are taken apart from both ends: 42 bytes of address in front, 8 bytes of block
number behind, and the data between them. -/
theorem callPreimage_inj {a a' : Address} {data data' : Bytes} {n n' : UInt64}
    (h : callPreimage keccak256 a data n = callPreimage keccak256 a' data' n') :
    a = a' ∧ data = data' ∧ n = n' := by
  unfold callPreimage at h
  have hback := List.append_inj' h (by rw [BigEndian.length_bytes, BigEndian.length_bytes])
  have hfront := List.append_inj hback.1 (by rw [length_addressBytes, length_addressBytes])
  have htext := String.toList_injective (Utf8.encode_injective hfront.1)
  have haddress : a = a' := by
    have hread := congrArg Address.fromHex htext
    rw [Address.fromHex_checksumHex, Address.fromHex_checksumHex] at hread
    exact Option.some.inj hread
  have hnumber : n = n' := by
    have hvalue := congrArg BigEndian.value hback.2
    have hn := n.toNat_lt
    have hn' := n'.toNat_lt
    have hpow : (256 : ℕ) ^ 8 = 2 ^ 64 := by decide
    rw [BigEndian.value_bytes_of_lt (by omega), BigEndian.value_bytes_of_lt (by omega)] at hvalue
    exact UInt64.toNat_inj.mp hvalue
  exact ⟨haddress, hfront.2, hnumber⟩

theorem ethCallKey_inj {a a' : Address} {data data' : Bytes} {n n' : UInt64}
    (h : ethCallKey keccak256 sha256 a data n = ethCallKey keccak256 sha256 a' data' n') :
    sha256 (callPreimage keccak256 a data n) = sha256 (callPreimage keccak256 a' data' n') := by
  have htext := String.ofList_injective h
  have hread := congrArg Hex.decode htext
  rw [Hex.decode_encode, Hex.decode_encode] at hread
  generalize sha256 (callPreimage keccak256 a data n) = x at hread ⊢
  generalize sha256 (callPreimage keccak256 a' data' n') = y at hread ⊢
  cases x
  cases y
  congr
  exact Option.some.inj hread

end Keys

/-- What a call is asked for under. -/
structure EthCall where
  chainId : UInt64
  toAddress : Address
  data : Bytes
  block : UInt64
  deriving DecidableEq

/-- A `put_eth_call`. -/
structure CallPut where
  call : EthCall
  result : Bytes

section Runs

variable (keccak256 sha256 : Bytes → Hash32) (fate : ℕ → Fate)

/-- Puts one after the other, whether they succeed or not: those that did, and the state after
them. -/
def putCalls : List CallPut → CallCache → List CallPut × CallCache
  | [], w => ([], w)
  | p :: ps, w =>
    let r := RpcCacheStore.putEthCall keccak256 sha256 fate p.call.chainId p.call.toAddress
      p.call.data p.call.block p.result w
    let rest := putCalls ps r.2
    (if r.1 = .ok () then p :: rest.1 else rest.1, rest.2)

/-- The row of a put. -/
def callRow (p : CallPut) : CallRow where
  chainId := p.call.chainId.toInt64
  callKey := ethCallKey keccak256 sha256 p.call.toAddress p.call.data p.call.block
  result := p.result
  blockNumber := p.call.block.toInt64

variable {keccak256 sha256 fate}

theorem putEthCall_cases (p : CallPut) (w : CallCache) :
    let r := RpcCacheStore.putEthCall keccak256 sha256 fate p.call.chainId p.call.toAddress
      p.call.data p.call.block p.result w
    (r.1 = .ok () ∧ r.2.calls = FirstWins.insertNew (fun r s => decide (s.key = r.key)) w.calls
      (callRow keccak256 sha256 p)) ∨ (r.1 ≠ .ok () ∧ r.2.calls = w.calls) := by
  dsimp only
  rcases hsend : CallCache.onRpc (sendCache fate) w with ⟨_ | e | _, w'⟩
  · left
    have hcalls : w'.calls = w.calls := (congrArg (fun r => r.2.calls) hsend).symm
    have hput : RpcCacheStore.putEthCall keccak256 sha256 fate p.call.chainId p.call.toAddress
        p.call.data p.call.block p.result w = _ := Proc.bind_of_ok hsend
    rw [hput, ← hcalls]
    exact ⟨rfl, rfl⟩
  · right
    have hcalls : w'.calls = w.calls := (congrArg (fun r => r.2.calls) hsend).symm
    have hput : RpcCacheStore.putEthCall keccak256 sha256 fate p.call.chainId p.call.toAddress
        p.call.data p.call.block p.result w = (.err e, w') := by
      change Proc.bind (CallCache.onRpc (sendCache fate)) _ w = _
      unfold Proc.bind
      rw [hsend]
    rw [hput]
    exact ⟨nofun, hcalls⟩
  · right
    have hcalls : w'.calls = w.calls := (congrArg (fun r => r.2.calls) hsend).symm
    have hput : RpcCacheStore.putEthCall keccak256 sha256 fate p.call.chainId p.call.toAddress
        p.call.data p.call.block p.result w = (.stopped, w') := by
      change Proc.bind (CallCache.onRpc (sendCache fate)) _ w = _
      unfold Proc.bind
      rw [hsend]
    rw [hput]
    exact ⟨nofun, hcalls⟩

theorem calls_putCalls (ps : List CallPut) (w : CallCache) :
    (putCalls keccak256 sha256 fate ps w).2.calls =
      FirstWins.insertAllNew (fun r s => decide (s.key = r.key)) w.calls
        ((putCalls keccak256 sha256 fate ps w).1.map (callRow keccak256 sha256)) := by
  induction ps generalizing w with
  | nil => rfl
  | cons p ps ih =>
    unfold putCalls
    dsimp only
    rw [ih]
    rcases putEthCall_cases p w with
      ⟨hok, hcalls⟩ | ⟨hne, hcalls⟩
    · rw [if_pos hok, hcalls]
      rfl
    · rw [if_neg hne, hcalls]

theorem putCalls_sublist (ps : List CallPut) (w : CallCache) :
    (putCalls keccak256 sha256 fate ps w).1.Sublist ps := by
  induction ps generalizing w with
  | nil => exact List.Sublist.refl _
  | cons p ps ih =>
    unfold putCalls
    dsimp only
    split_ifs
    · exact (ih _).cons_cons p
    · exact (ih _).cons p

theorem getEthCall_executed {c : EthCall} {w : CallCache} (hfate : fate w.rpc.clock = .executed) :
    (RpcCacheStore.getEthCall keccak256 sha256 fate c.chainId c.toAddress c.data c.block w).1 =
      .ok ((w.calls.find? fun r => r.key = (callRow keccak256 sha256 ⟨c, []⟩).key).map
        CallRow.result) := by
  have hsend : CallCache.onRpc (sendCache fate) w =
      (.ok (), { w with rpc := { w.rpc with clock := w.rpc.clock + 1 } }) := by
    unfold CallCache.onRpc sendCache
    rw [hfate]
  have hget : RpcCacheStore.getEthCall keccak256 sha256 fate c.chainId c.toAddress c.data c.block
      w = _ := Proc.bind_of_ok hsend
  rw [hget]
  rfl

/-- After any puts, a lookup gives the result of the first successful one under its own chain,
address, data and block, and nothing if there was none.  SHA-256 tells the calls of the run and the
call of the lookup apart. -/
theorem getEthCall_first_put (puts : List CallPut) (c : EthCall)
    (hsha : ∀ p ∈ puts, sha256 (callPreimage keccak256 p.call.toAddress p.call.data p.call.block) =
      sha256 (callPreimage keccak256 c.toAddress c.data c.block) →
        callPreimage keccak256 p.call.toAddress p.call.data p.call.block =
          callPreimage keccak256 c.toAddress c.data c.block)
    {fate' : ℕ → Fate} {w : CallCache}
    (hw : w.calls = (putCalls keccak256 sha256 fate puts CallCache.empty).2.calls)
    (hread : fate' w.rpc.clock = .executed) :
    (RpcCacheStore.getEthCall keccak256 sha256 fate' c.chainId c.toAddress c.data c.block w).1 =
      .ok (((putCalls keccak256 sha256 fate puts CallCache.empty).1.find?
        fun p => p.call = c).map CallPut.result) := by
  have hfind := FirstWins.find?_insertAllNew CallRow.key CallCache.empty.calls
    ((putCalls keccak256 sha256 fate puts CallCache.empty).1.map (callRow keccak256 sha256))
    (callRow keccak256 sha256 ⟨c, []⟩).key
  have hkeys : ((putCalls keccak256 sha256 fate puts CallCache.empty).1.find? fun p =>
      decide ((callRow keccak256 sha256 p).key = (callRow keccak256 sha256 ⟨c, []⟩).key)) =
        (putCalls keccak256 sha256 fate puts CallCache.empty).1.find? fun p => p.call = c := by
    apply List.find?_congr
    intro p hp
    rw [decide_eq_decide]
    constructor
    · intro hkey
      obtain ⟨⟨chainId, toAddress, data, block⟩, result⟩ := p
      obtain ⟨chainId', toAddress', data', block'⟩ := c
      have hchain : chainId = chainId' := toInt64_inj (congrArg Prod.fst hkey)
      have hpreimage := hsha _ ((putCalls_sublist puts CallCache.empty).subset hp) (ethCallKey_inj (congrArg Prod.snd hkey))
      obtain ⟨rfl, rfl, rfl⟩ := callPreimage_inj hpreimage
      subst hchain
      rfl
    · intro hcall
      rw [← hcall]
      rfl
  rw [getEthCall_executed hread, hw, calls_putCalls, hfind, List.find?_append]
  show Ended.ok ((List.find? _ (List.map _ _)).map _) = _
  rw [List.find?_map, Option.map_map]
  exact congrArg (fun found => Ended.ok (Option.map CallPut.result found)) hkeys

end Runs

/-- The SHA-256 hash of the calls to the address zero without data at the blocks 1 and 2. -/
def sha256OfTwoCalls (bs : Bytes) : Hash32 :=
  if bs.getLast? = some 1 then {
  bytes := [31, 230, 37, 253, 246, 43, 23, 223, 143, 143, 148, 166, 75, 1, 220, 154, 30, 178,
    111, 200, 95, 195, 232, 140, 150, 195, 99, 33, 160, 219, 122, 100]
  size := rfl }
  else {
  bytes := [75, 54, 8, 84, 51, 80, 194, 60, 189, 42, 66, 87, 52, 187, 50, 245, 67, 211, 44, 143,
    120, 1, 186, 144, 244, 58, 96, 235, 162, 25, 24, 167]
  size := rfl }

/-- Two puts for block 1 with one for block 2 between them. -/
theorem getEthCall_first_put_repeated :
    let call (n : UInt64) : EthCall := ⟨1, Address.zero, [], n⟩
    let puts : List CallPut := [⟨call 1, [10]⟩, ⟨call 2, [20]⟩, ⟨call 1, [30]⟩]
    (RpcCacheStore.getEthCall keccakOfZeros sha256OfTwoCalls (fun _ => .executed) 1 Address.zero []
      1 (putCalls keccakOfZeros sha256OfTwoCalls (fun _ => .executed) puts CallCache.empty).2).1 =
        .ok (some [10]) := by
  intro call puts
  have hsha : ∀ p ∈ puts, sha256OfTwoCalls (callPreimage keccakOfZeros p.call.toAddress p.call.data
      p.call.block) = sha256OfTwoCalls (callPreimage keccakOfZeros Address.zero [] 1) →
        callPreimage keccakOfZeros p.call.toAddress p.call.data p.call.block =
          callPreimage keccakOfZeros Address.zero [] 1 := by
    decide +kernel
  exact getEthCall_first_put puts (call 1) hsha rfl rfl

end ForgeIndex
