import ForgeIndex.Rpc.Transparency

/-!
# The block cache

`forge-index-rpc`: the block part of `cache/store.rs` and `CachedRpcClient::get_block_by_number`.
The `raw` column is written and never read, so it is left out.
-/

namespace ForgeIndex

/-- A row of `ponder_sync.blocks`.  The base fee is a `NUMERIC` that goes in and out as a decimal
text. -/
structure BlockRow where
  chainId : Int64
  blockNumber : Int64
  blockHash : String
  parentHash : String
  timestamp : Int64
  miner : String
  gasLimit : Int64
  gasUsed : Int64
  baseFee : Option ℕ
  deriving DecidableEq

/-- `s.parse::<u128>().ok()` of the text of a `NUMERIC`. -/
def parseU128 (n : ℕ) : Option (BitVec 128) :=
  if n < 2 ^ 128 then some (BitVec.ofNat 128 n) else none

def BlockRow.intoBlock (r : BlockRow) : Block where
  chainId := r.chainId.toUInt64
  number := r.blockNumber.toUInt64
  hash := (Hash32.fromHex r.blockHash).getD Hash32.zero
  parentHash := (Hash32.fromHex r.parentHash).getD Hash32.zero
  timestamp := r.timestamp.toUInt64
  gasLimit := r.gasLimit.toUInt64
  gasUsed := r.gasUsed.toUInt64
  baseFeePerGas := r.baseFee.bind parseU128
  miner := (Address.fromHex r.miner).getD Address.zero

/-- The cache database with its blocks. -/
structure BlockCache where
  rpc : RpcCache
  blocks : List BlockRow

/-- A new client on empty tables. -/
def BlockCache.empty : BlockCache := ⟨RpcCache.empty, []⟩

/-- A process that leaves the blocks alone. -/
def BlockCache.onRpc {ε α : Type} (m : Proc RpcCache ε α) : Proc BlockCache ε α := fun w =>
  let r := m w.rpc
  (r.1, { w with rpc := r.2 })

section Store

variable (keccak256 : Bytes → Hash32)

/-- The values bound to `$1` to `$9`. -/
def blockRow (chainId : UInt64) (b : Block) : BlockRow where
  chainId := chainId.toInt64
  blockNumber := b.number.toInt64
  blockHash := b.hash.display
  parentHash := b.parentHash.display
  timestamp := b.timestamp.toInt64
  miner := b.miner.checksumHex keccak256
  gasLimit := b.gasLimit.toInt64
  gasUsed := b.gasUsed.toInt64
  baseFee := b.baseFeePerGas.map BitVec.toNat

/-- `PRIMARY KEY (chain_id, block_number)`. -/
def BlockRow.key (r : BlockRow) : Int64 × Int64 := (r.chainId, r.blockNumber)

variable (fate : ℕ → Fate)

namespace RpcCacheStore

def getBlock (chainId number : UInt64) : Proc BlockCache SqlxError (Option Block) := do
  BlockCache.onRpc (sendCache fate)
  let w ← Proc.get
  pure ((w.blocks.find? fun r => r.key = (chainId.toInt64, number.toInt64)).map BlockRow.intoBlock)

/-- `ON CONFLICT DO NOTHING` on the blocks. -/
def addBlock (rows : List BlockRow) (r : BlockRow) : List BlockRow :=
  if rows.any fun s => s.key = r.key then rows else rows ++ [r]

def putBlock (chainId : UInt64) (b : Block) : Proc BlockCache SqlxError Unit := do
  BlockCache.onRpc (sendCache fate)
  Proc.modify fun w => { w with blocks := addBlock w.blocks (blockRow keccak256 chainId b) }

end RpcCacheStore

/-- `CachedRpcClient::get_block_by_number` over an `RpcClient` that answers as `inner`. -/
def CachedRpcClient.getBlockByNumber {ε : Type} (inner : UInt64 → Except ε Block)
    (chainId n : UInt64) : Proc BlockCache ε Block := do
  match ← Proc.attempt (RpcCacheStore.getBlock fate chainId n) with
  | .ok (some block) =>
    BlockCache.onRpc (Proc.modify fun w => { w with hits := w.hits + 1 })
    pure block
  | _ =>
    BlockCache.onRpc (Proc.modify fun w => { w with misses := w.misses + 1 })
    let block ← Proc.ofExcept (inner n)
    Proc.ignore (RpcCacheStore.putBlock keccak256 fate chainId block)
    pure block

end Store

section Rows

variable {keccak256 : Bytes → Hash32} {chainId : UInt64}

theorem parseU128_toNat (v : BitVec 128) : parseU128 v.toNat = some v := by
  unfold parseU128
  rw [if_pos v.isLt, BitVec.ofNat_toNat, BitVec.setWidth_eq]

theorem intoBlock_blockRow {b : Block} (hb : b.chainId = chainId) :
    (blockRow keccak256 chainId b).intoBlock = b := by
  have hfee : (b.baseFeePerGas.map BitVec.toNat).bind parseU128 = b.baseFeePerGas := by
    cases b.baseFeePerGas with
    | none => rfl
    | some v => exact parseU128_toNat v
  unfold BlockRow.intoBlock blockRow
  simp only [hfee, Address.fromHex_checksumHex, Hash32.fromHex_display, Option.getD_some,
    UInt64.toUInt64_toInt64, ← hb]

theorem toInt64_inj {a b : UInt64} (h : a.toInt64 = b.toInt64) : a = b := by
  have := congrArg Int64.toUInt64 h
  simpa using this

/-- The blocks that the table holds, by number. -/
structure HoldsBlocks (keccak256 : Bytes → Hash32) (chainId : UInt64) (held : UInt64 → Option Block)
    (rows : List BlockRow) : Prop where
  find : ∀ n, rows.find? (fun r => r.key = (chainId.toInt64, n.toInt64)) =
    (held n).map (blockRow keccak256 chainId)
  number_eq : ∀ n b, held n = some b → b.number = n
  chainId_eq : ∀ n b, held n = some b → b.chainId = chainId

theorem holds_empty : HoldsBlocks keccak256 chainId (fun _ => none) [] where
  find _ := rfl
  number_eq _ _ h := by cases h
  chainId_eq _ _ h := by cases h

theorem HoldsBlocks.add {held : UInt64 → Option Block} {rows : List BlockRow}
    (h : HoldsBlocks keccak256 chainId held rows) {b : Block} (hb : b.chainId = chainId) :
    HoldsBlocks keccak256 chainId (fun n => (held n).or (if n = b.number then some b else none))
      (RpcCacheStore.addBlock rows (blockRow keccak256 chainId b)) := by
  have hany : (rows.any fun s => s.key = (blockRow keccak256 chainId b).key) =
      (held b.number).isSome := by
    have hfind := congrArg Option.isSome (h.find b.number)
    rw [Option.isSome_map] at hfind
    rw [← hfind, Bool.eq_iff_iff, List.any_eq_true, List.find?_isSome]
    rfl
  have hcases : ∀ n c, (held n).or (if n = b.number then some b else none) = some c →
      held n = some c ∨ (n = b.number ∧ c = b) := by
    intro n c hc
    cases hn : held n with
    | some c' =>
      rw [hn] at hc
      exact .inl hc
    | none =>
      rw [hn, Option.none_or] at hc
      split_ifs at hc with hnum
      exact .inr ⟨hnum, (Option.some.inj hc).symm⟩
  refine ⟨fun n => ?_, fun n c hc => ?_, fun n c hc => ?_⟩
  · unfold RpcCacheStore.addBlock
    rw [hany]
    cases hheld : held b.number with
    | some c =>
      rw [Option.isSome_some, if_pos rfl, h.find n]
      by_cases hn : n = b.number
      · rw [hn, hheld]
        rfl
      · rw [if_neg hn, Option.or_none]
    | none =>
      rw [Option.isSome_none, if_neg Bool.false_ne_true, List.find?_append, h.find n]
      have hkey : ((blockRow keccak256 chainId b).key = (chainId.toInt64, n.toInt64)) ↔
          n = b.number := by
        constructor
        · intro hk
          exact (toInt64_inj (congrArg Prod.snd hk)).symm
        · rintro rfl
          rfl
      cases hn : held n with
      | some c => rfl
      | none =>
        by_cases hnum : n = b.number
        · simp [hkey.mpr hnum, hnum]
        · simp [hkey, hnum]
  · rcases hcases n c hc with hn | ⟨rfl, rfl⟩
    · exact h.number_eq n c hn
    · rfl
  · rcases hcases n c hc with hn | ⟨-, rfl⟩
    · exact h.chainId_eq n c hn
    · exact hb

end Rows

section Calls

variable (keccak256 : Bytes → Hash32) {chainId : UInt64} {fate : ℕ → Fate} {ε : Type}
  (hfate : ∀ n, fate n = .executed)

theorem onRpc_of_ok {α : Type} {m : Proc RpcCache ε α} {w : BlockCache} {a : α} {rpc : RpcCache}
    (h : m w.rpc = (.ok a, rpc)) : BlockCache.onRpc m w = (.ok a, { w with rpc }) := by
  unfold BlockCache.onRpc
  rw [h]

include hfate

theorem getBlock_executed (n : UInt64) {held : UInt64 → Option Block} {w : BlockCache}
    (h : HoldsBlocks keccak256 chainId held w.blocks) :
    RpcCacheStore.getBlock fate chainId n w =
      (.ok (held n), { w with rpc := { w.rpc with clock := w.rpc.clock + 1 } }) := by
  have hread : (w.blocks.find? fun r => r.key = (chainId.toInt64, n.toInt64)).map
      BlockRow.intoBlock = held n := by
    rw [h.find n]
    cases hn : held n with
    | none => rfl
    | some b => exact congrArg some (intoBlock_blockRow (h.chainId_eq n b hn))
  unfold RpcCacheStore.getBlock
  rw [Proc.bind_of_ok (onRpc_of_ok (sendCache_executed hfate w.rpc))]
  rw [← hread]
  rfl

/-- A block that is held is returned; any other is asked of the node and then held. -/
theorem getBlockByNumber_step {inner : UInt64 → Except ε Block} (n : UInt64)
    (hinner : ∀ b, inner n = .ok b → b.number = n ∧ b.chainId = chainId)
    {held : UInt64 → Option Block} {w : BlockCache} (h : HoldsBlocks keccak256 chainId held w.blocks) :
    let r := CachedRpcClient.getBlockByNumber keccak256 fate inner chainId n w
    r.1 = (match held n with
      | some b => .ok b
      | none => match inner n with
        | .ok b => .ok b
        | .error e => .err e) ∧
      HoldsBlocks keccak256 chainId
        (fun k => (held k).or (if k = n then (inner n).toOption else none)) r.2.blocks ∧
      r.2.rpc.logs = w.rpc.logs := by
  intro r
  have hget := getBlock_executed keccak256 hfate n h
  have hbind : r = (Proc.attempt (RpcCacheStore.getBlock fate chainId n) >>= fun x => match x with
      | .ok (some block) => do
        BlockCache.onRpc (Proc.modify fun w => { w with hits := w.hits + 1 })
        pure block
      | _ => do
        BlockCache.onRpc (Proc.modify fun w => { w with misses := w.misses + 1 })
        let block ← Proc.ofExcept (inner n)
        Proc.ignore (RpcCacheStore.putBlock keccak256 fate chainId block)
        pure block) w := rfl
  rw [Proc.bind_of_ok (Proc.attempt_of_ok hget)] at hbind
  cases hheld : held n with
  | some b =>
    rw [hheld] at hbind
    have hsame : (fun k => (held k).or (if k = n then (inner n).toOption else none)) = held := by
      funext k
      by_cases hk : k = n
      · rw [hk, hheld]
        rfl
      · rw [if_neg hk, Option.or_none]
    rw [hsame, hbind]
    exact ⟨rfl, h, rfl⟩
  | none =>
    rw [hheld] at hbind
    cases hin : inner n with
    | error e =>
      rw [hin] at hbind
      have hsame : (fun k => (held k).or
          (if k = n then (Except.error e : Except ε Block).toOption else none)) = held := by
        funext k
        simp [Except.toOption]
      rw [hsame, hbind]
      exact ⟨rfl, h, rfl⟩
    | ok b =>
      obtain ⟨hnumber, hchain⟩ := hinner b hin
      rw [hin] at hbind
      let w₁ : BlockCache := { w with rpc := { w.rpc with
        clock := w.rpc.clock + 1
        misses := w.rpc.misses + 1 } }
      have hput : RpcCacheStore.putBlock keccak256 fate chainId b w₁ =
          (.ok (), { w₁ with
            rpc := { w₁.rpc with clock := w₁.rpc.clock + 1 }
            blocks := RpcCacheStore.addBlock w.blocks (blockRow keccak256 chainId b) }) :=
        Proc.bind_of_ok (onRpc_of_ok (sendCache_executed hfate w₁.rpc))
      have hrun : r = (.ok b, { w₁ with
          rpc := { w₁.rpc with clock := w₁.rpc.clock + 1 }
          blocks := RpcCacheStore.addBlock w.blocks (blockRow keccak256 chainId b) }) := by
        rw [hbind]
        exact Proc.bind_ok_iff.mpr ⟨(), w₁, rfl, Proc.bind_ok_iff.mpr ⟨b, w₁, rfl,
          Proc.bind_ok_iff.mpr ⟨(), _, Proc.ignore_of_ok hput, rfl⟩⟩⟩
      rw [hrun]
      have hadd := h.add hchain
      rw [hnumber] at hadd
      exact ⟨rfl, hadd, rfl⟩

end Calls

end ForgeIndex
