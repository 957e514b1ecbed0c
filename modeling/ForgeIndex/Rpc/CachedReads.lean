import ForgeIndex.Lib.ReadThrough
import ForgeIndex.Rpc.EthCalls

/-!
# Reads of one cache at the same time

`CachedRpcClient::eth_call` and `CachedRpcClient::get_block_by_number`, by any number of calls over
the clients of several chains, while statements to the cache fail.
-/

namespace ForgeIndex

section Calls

variable (keccak256 sha256 : Bytes → Hash32) (fate : ℕ → Fate)

/-- What `CachedRpcClient::eth_call` is made of. -/
def callReads : ReadThrough CallCache SqlxError EthCall Bytes where
  get c := RpcCacheStore.getEthCall keccak256 sha256 fate c.chainId c.toAddress c.data c.block
  put c result :=
    RpcCacheStore.putEthCall keccak256 sha256 fate c.chainId c.toAddress c.data c.block result
  hit w := { w with rpc := { w.rpc with hits := w.rpc.hits + 1 } }
  miss w := { w with rpc := { w.rpc with misses := w.rpc.misses + 1 } }

/-- `CachedRpcClient::eth_call` over an `RpcClient` that answers as `inner`. -/
def CachedRpcClient.ethCall {ε : Type} (inner : Address → Bytes → UInt64 → Except ε Bytes)
    (chainId : UInt64) (toAddress : Address) (data : Bytes) (block : UInt64) :
    Proc CallCache ε Bytes :=
  (callReads keccak256 sha256 fate).read (fun c => inner c.toAddress c.data c.block)
    ⟨chainId, toAddress, data, block⟩

variable {keccak256 sha256 fate}

theorem getEthCall_cases (c : EthCall) (w : CallCache) :
    let r := RpcCacheStore.getEthCall keccak256 sha256 fate c.chainId c.toAddress c.data c.block w
    r.2.calls = w.calls ∧ ∀ x, r.1 = .ok x →
      x = (w.calls.find? fun r => r.key = (callRow keccak256 sha256 ⟨c, []⟩).key).map
        CallRow.result := by
  intro r
  rcases hsend : CallCache.onRpc (sendCache fate) w with ⟨_ | e | _, w'⟩
  · have hcalls : w'.calls = w.calls := (congrArg (fun r => r.2.calls) hsend).symm
    have hget : r = (.ok ((w'.calls.find? fun r =>
        r.key = (callRow keccak256 sha256 ⟨c, []⟩).key).map CallRow.result), w') :=
      Proc.bind_of_ok hsend
    rw [hget, ← hcalls]
    refine ⟨rfl, fun x hx => ?_⟩
    cases hx
    rfl
  · have hcalls : w'.calls = w.calls := (congrArg (fun r => r.2.calls) hsend).symm
    have hget : r = (.err e, w') := Proc.bind_of_err hsend
    rw [hget]
    refine ⟨hcalls, fun x hx => ?_⟩
    cases hx
  · have hcalls : w'.calls = w.calls := (congrArg (fun r => r.2.calls) hsend).symm
    have hget : r = (.stopped, w') := Proc.bind_of_stopped hsend
    rw [hget]
    refine ⟨hcalls, fun x hx => ?_⟩
    cases hx

/-- The table of the calls. -/
def callTable (keccak256 sha256 : Bytes → Hash32) (fate : ℕ → Fate) :
    (callReads keccak256 sha256 fate).Table CallRow (Int64 × String) where
  rows w := w.calls
  rowKey := CallRow.key
  key c := (callRow keccak256 sha256 ⟨c, []⟩).key
  row c result := callRow keccak256 sha256 ⟨c, result⟩
  value r := some r.result
  rows_get c w := (getEthCall_cases c w).1
  get_eq c w x hx := by
    rw [(getEthCall_cases c w).2 x hx]
    cases w.calls.find? fun r => r.key = (callRow keccak256 sha256 ⟨c, []⟩).key with
    | none => rfl
    | some r => rfl
  rows_put c result w := by
    rcases putEthCall_cases ⟨c, result⟩ w with ⟨-, hadd⟩ | ⟨-, hsame⟩
    · exact .inr hadd
    · exact .inl hsame
  rows_hit _ := rfl
  rows_miss _ := rfl

/-- SHA-256 tells two calls apart. -/
def Apart (keccak256 sha256 : Bytes → Hash32) (c c' : EthCall) : Prop :=
  sha256 (callPreimage keccak256 c.toAddress c.data c.block) =
      sha256 (callPreimage keccak256 c'.toAddress c'.data c'.block) →
    callPreimage keccak256 c.toAddress c.data c.block =
      callPreimage keccak256 c'.toAddress c'.data c'.block

theorem eq_of_callRow_key {c c' : EthCall} {result result' : Bytes}
    (hapart : Apart keccak256 sha256 c c')
    (h : (callRow keccak256 sha256 ⟨c, result⟩).key = (callRow keccak256 sha256 ⟨c', result'⟩).key) :
    c = c' := by
  obtain ⟨chainId, toAddress, data, block⟩ := c
  obtain ⟨chainId', toAddress', data', block'⟩ := c'
  have hchain : chainId = chainId' := toInt64_inj (congrArg Prod.fst h)
  obtain ⟨rfl, rfl, rfl⟩ := callPreimage_inj (hapart (ethCallKey_inj (congrArg Prod.snd h)))
  subst hchain
  rfl

variable {T : Type} [DecidableEq T]

/-- Calls of contracts by any number of readers at the same time, over clients of several chains,
while statements to the cache fail.  If SHA-256 tells the calls that are asked for apart, everything
that is returned is an answer that the node of its chain gave for the same address, data and block,
and the cache returns the same for a call every time. -/
theorem ethCall_runs (request : T → EthCall)
    (hsha : ∀ t u, Apart keccak256 sha256 (request t) (request u))
    (actions : List (ReadThrough.Action Bytes T)) :
    let s := (callReads keccak256 sha256 fate).run request .empty actions
    (∀ t hit result, s.phase t = .served hit result → (request t, result) ∈ s.answers) ∧
    ∀ t u result result', s.phase t = .served true result → s.phase u = .served true result' →
      request t = request u → result = result' := by
  intro s
  have hkept : (callTable keccak256 sha256 fate).Kept request .empty s :=
    ReadThrough.Table.kept_run CallCache.empty actions
  refine ⟨?_, ?_⟩
  · intro t hit result h
    rcases ReadThrough.Table.served_run (callTable keccak256 sha256 fate) h with
      ⟨-, hasked⟩ | ⟨-, hheld⟩
    · exact hasked
    · rcases hkept.held_from hheld with ⟨r, hr, -⟩ | ⟨c, result', hmem, hkey, hvalue⟩
      · exact absurd hr List.not_mem_nil
      · obtain ⟨u, hu⟩ := ReadThrough.request_of_mem_run _ hmem
        dsimp only at hu
        subst hu
        have hsame : request u = request t := eq_of_callRow_key (hsha u t) hkey
        cases hvalue
        rw [← hsame]
        exact hmem
  · intro t u result result' ht hu hrequest
    exact ReadThrough.Table.hits_agree (callTable keccak256 sha256 fate) ht hu
      (congrArg (callTable keccak256 sha256 fate).key hrequest)

end Calls

/-- Two readers of one call and a third one of another: the second one is served from the cache. -/
theorem ethCall_runs_three :
    let request (t : Fin 3) : EthCall := ⟨1, Address.zero, [], if t = 2 then 2 else 1⟩
    let s := (callReads keccakOfZeros sha256OfTwoCalls (fun _ => .executed)).run request .empty
      [.look 0, .ask 0 (some [10]), .look 2, .store 0, .look 1]
    (∀ t hit result, s.phase t = .served hit result → (request t, result) ∈ s.answers) ∧
    ∀ t u result result', s.phase t = .served true result → s.phase u = .served true result' →
      request t = request u → result = result' := by
  intro request
  have hsha : ∀ t u, Apart keccakOfZeros sha256OfTwoCalls (request t) (request u) := by
    unfold Apart
    decide +kernel
  exact ethCall_runs request hsha _

section Blocks

variable (keccak256 : Bytes → Hash32) (fate : ℕ → Fate)

/-- What `CachedRpcClient::get_block_by_number` is made of. -/
def blockReads : ReadThrough BlockCache SqlxError (UInt64 × UInt64) Block where
  get k := RpcCacheStore.getBlock fate k.1 k.2
  put k b := RpcCacheStore.putBlock keccak256 fate k.1 b
  hit w := { w with rpc := { w.rpc with hits := w.rpc.hits + 1 } }
  miss w := { w with rpc := { w.rpc with misses := w.rpc.misses + 1 } }

variable {keccak256 fate}

theorem getBlockByNumber_eq_read {ε : Type} (inner : UInt64 → Except ε Block)
    (chainId n : UInt64) : CachedRpcClient.getBlockByNumber keccak256 fate inner chainId n =
      (blockReads keccak256 fate).read (fun k => inner k.2) (chainId, n) := by
  funext w
  show Proc.bind (Proc.attempt (RpcCacheStore.getBlock fate chainId n)) _ w =
    Proc.bind (Proc.attempt (RpcCacheStore.getBlock fate chainId n)) _ w
  unfold Proc.bind Proc.attempt
  rcases RpcCacheStore.getBlock fate chainId n w with ⟨x | e | _, w'⟩
  · cases x with
    | none => rfl
    | some b => rfl
  · rfl
  · rfl

/-- The block that a client of another chain reads from the row of a block. -/
def Block.onChain (b : Block) (chainId : UInt64) : Block := { b with chainId }

theorem onChain_self {b : Block} {chainId : UInt64} (h : b.chainId = chainId) :
    b.onChain chainId = b := by
  subst h
  rfl

theorem intoBlock_eq_onChain (chainId : UInt64) (b : Block) :
    (blockRow keccak256 chainId b).intoBlock = b.onChain chainId := by
  have hread : (blockRow keccak256 chainId (b.onChain chainId)).intoBlock = b.onChain chainId :=
    intoBlock_blockRow rfl
  exact hread

theorem getBlock_cases (k : UInt64 × UInt64) (w : BlockCache) :
    let r := RpcCacheStore.getBlock fate k.1 k.2 w
    r.2.blocks = w.blocks ∧ ∀ x, r.1 = .ok x →
      x = (w.blocks.find? fun r => r.key = (k.1.toInt64, k.2.toInt64)).map BlockRow.intoBlock := by
  intro r
  rcases hsend : BlockCache.onRpc (sendCache fate) w with ⟨_ | e | _, w'⟩
  · have hblocks : w'.blocks = w.blocks := (congrArg (fun r => r.2.blocks) hsend).symm
    have hget : r = (.ok ((w'.blocks.find? fun r =>
        r.key = (k.1.toInt64, k.2.toInt64)).map BlockRow.intoBlock), w') := Proc.bind_of_ok hsend
    rw [hget, ← hblocks]
    refine ⟨rfl, fun x hx => ?_⟩
    cases hx
    rfl
  · have hblocks : w'.blocks = w.blocks := (congrArg (fun r => r.2.blocks) hsend).symm
    have hget : r = (.err e, w') := Proc.bind_of_err hsend
    rw [hget]
    refine ⟨hblocks, fun x hx => ?_⟩
    cases hx
  · have hblocks : w'.blocks = w.blocks := (congrArg (fun r => r.2.blocks) hsend).symm
    have hget : r = (.stopped, w') := Proc.bind_of_stopped hsend
    rw [hget]
    refine ⟨hblocks, fun x hx => ?_⟩
    cases hx

theorem putBlock_cases (k : UInt64 × UInt64) (b : Block) (w : BlockCache) :
    let r := RpcCacheStore.putBlock keccak256 fate k.1 b w
    r.2.blocks = w.blocks ∨
      r.2.blocks = RpcCacheStore.addBlock w.blocks (blockRow keccak256 k.1 b) := by
  intro r
  rcases hsend : BlockCache.onRpc (sendCache fate) w with ⟨_ | e | _, w'⟩
  · have hblocks : w'.blocks = w.blocks := (congrArg (fun r => r.2.blocks) hsend).symm
    have hput : r = (.ok (), { w' with
        blocks := RpcCacheStore.addBlock w'.blocks (blockRow keccak256 k.1 b) }) :=
      Proc.bind_of_ok hsend
    rw [hput, ← hblocks]
    exact .inr rfl
  · have hblocks : w'.blocks = w.blocks := (congrArg (fun r => r.2.blocks) hsend).symm
    have hput : r = (.err e, w') := Proc.bind_of_err hsend
    rw [hput]
    exact .inl hblocks
  · have hblocks : w'.blocks = w.blocks := (congrArg (fun r => r.2.blocks) hsend).symm
    have hput : r = (.stopped, w') := Proc.bind_of_stopped hsend
    rw [hput]
    exact .inl hblocks

/-- The table of the blocks. -/
def blockTable (keccak256 : Bytes → Hash32) (fate : ℕ → Fate) :
    (blockReads keccak256 fate).Table BlockRow (Int64 × Int64) where
  rows w := w.blocks
  rowKey := BlockRow.key
  key k := (k.1.toInt64, k.2.toInt64)
  row k b := blockRow keccak256 k.1 b
  value r := some r.intoBlock
  rows_get k w := (getBlock_cases k w).1
  get_eq k w x hx := by
    rw [(getBlock_cases k w).2 x hx]
    cases w.blocks.find? fun r => r.key = (k.1.toInt64, k.2.toInt64) with
    | none => rfl
    | some r => rfl
  rows_put k b w := putBlock_cases k b w
  rows_hit _ := rfl
  rows_miss _ := rfl

variable {T : Type} [DecidableEq T]

/-- Reads of blocks by any number of readers at the same time, over clients of several chains, while
statements to the cache fail.  What comes from the cache is a block with the number that was asked
for, which the node of that chain answered to some request before, and the cache returns the same
block for a number every time.  If the node answers each number with one block of that number and of
its chain, all that is returned is what the node would have answered. -/
theorem getBlock_runs (request : T → UInt64 × UInt64)
    (actions : List (ReadThrough.Action Block T)) :
    let s := (blockReads keccak256 fate).run request .empty actions
    (∀ t hit b, s.phase t = .served hit b →
      (hit = false ∧ (request t, b) ∈ s.answers) ∨
      (hit = true ∧ b.number = (request t).2 ∧ ∃ n b', (((request t).1, n), b') ∈ s.answers ∧
        b = b'.onChain (request t).1)) ∧
    (∀ t u b b', s.phase t = .served true b → s.phase u = .served true b' →
      request t = request u → b = b') ∧
    ∀ node : UInt64 → UInt64 → Block,
      (∀ c n, (node c n).number = n ∧ (node c n).chainId = c) →
      (∀ x ∈ s.answers, x.2 = node x.1.1 x.1.2) →
      ∀ t hit b, s.phase t = .served hit b → b = node (request t).1 (request t).2 := by
  intro s
  have hkept : (blockTable keccak256 fate).Kept request .empty s :=
    ReadThrough.Table.kept_run BlockCache.empty actions
  have hserved : ∀ t hit b, s.phase t = .served hit b →
      (hit = false ∧ (request t, b) ∈ s.answers) ∨
      (hit = true ∧ b.number = (request t).2 ∧ ∃ n b', (((request t).1, n), b') ∈ s.answers ∧
        b = b'.onChain (request t).1) := by
    intro t hit b h
    rcases ReadThrough.Table.served_run (blockTable keccak256 fate) h with
      hasked | ⟨htrue, hheld⟩
    · exact .inl hasked
    · rcases hkept.held_from hheld with ⟨r, hr, -⟩ | ⟨⟨chainId, n⟩, b', hmem, hkey, hvalue⟩
      · exact absurd hr List.not_mem_nil
      · have hchain : chainId = (request t).1 := toInt64_inj (congrArg Prod.fst hkey)
        have hnumber : b'.number = (request t).2 := toInt64_inj (congrArg Prod.snd hkey)
        subst hchain
        have hb : b = b'.onChain (request t).1 :=
          (Option.some.inj hvalue).symm.trans (intoBlock_eq_onChain (request t).1 b')
        refine .inr ⟨htrue, ?_, n, b', hmem, hb⟩
        rw [hb]
        exact hnumber
  refine ⟨hserved, ?_, ?_⟩
  · intro t u b b' ht hu hrequest
    exact ReadThrough.Table.hits_agree (blockTable keccak256 fate) ht hu
      (congrArg (blockTable keccak256 fate).key hrequest)
  · intro node hnode hanswers t hit b h
    rcases hserved t hit b h with ⟨-, hmem⟩ | ⟨-, hnumber, n, b', hmem, hb⟩
    · exact hanswers _ hmem
    · have hb' : b' = node (request t).1 n := hanswers _ hmem
      obtain ⟨hn, hchain⟩ := hnode (request t).1 n
      have hsame : b = b' := by
        rw [hb]
        apply onChain_self
        rw [hb', hchain]
      have hnum : n = (request t).2 := by
        rw [← hnumber, hsame, hb', hn]
      rw [hsame, hb', hnum]

/-- The three actions of a reader with nothing in between are one call of
`CachedRpcClient::get_block_by_number`. -/
theorem getBlockByNumber_run {ε : Type} (inner : UInt64 → Except ε Block)
    {request : T → UInt64 × UInt64} {s : ReadThrough.State BlockCache (UInt64 × UInt64) Block T} {t : T}
    (hidle : s.phase t = .idle) :
    ReadThrough.Returned
      ([.look t, .ask t (inner (request t).2).toOption, .store t].foldl
        ((blockReads keccak256 fate).step request) s) t
      (CachedRpcClient.getBlockByNumber keccak256 fate inner (request t).1 (request t).2 s.world) := by
  rw [getBlockByNumber_eq_read]
  exact ReadThrough.read_returned (fun k => inner k.2) hidle

end Blocks

end ForgeIndex
