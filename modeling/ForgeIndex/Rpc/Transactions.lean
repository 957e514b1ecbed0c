import Mathlib.Tactic.SplitIfs
import ForgeIndex.Api.Graphql.Values
import ForgeIndex.Lib.ReadThrough
import ForgeIndex.Rpc.BlockCache

/-!
# The transaction cache

`forge-index-rpc`: the transaction part of `cache/store.rs` and `CachedRpcClient::get_transaction`,
with the derived `Serialize` and `Deserialize` of `Transaction` in
`forge-index-core/src/types/transaction.rs` as `serde_json` runs them on a `Value`.
-/

namespace ForgeIndex

structure Transaction where
  chainId : UInt64
  hash : Hash32
  blockNumber : UInt64
  blockHash : Hash32
  fromAddress : Address
  toAddress : Option Address
  value : BitVec 128
  gas : UInt64
  gasPrice : Option (BitVec 128)
  input : Bytes
  nonce : UInt64
  transactionIndex : UInt32

namespace Serde

def ofU64 (n : UInt64) : JsonValue := .number (.posInt n)

/-- `serialize_u128`: what is no `u64` is out of range. -/
def ofU128 (n : BitVec 128) : Option JsonValue :=
  if n.toNat < 2 ^ 64 then some (ofU64 (UInt64.ofNat n.toNat)) else none

def ofOption {α : Type} (write : α → Option JsonValue) : Option α → Option JsonValue
  | some a => write a
  | none => some .null

/-- A number of the second kind is negative, and one of the third is no integer. -/
def toU64 : JsonValue → Option UInt64
  | .number (.posInt n) => some n
  | _ => none

def toU128 (v : JsonValue) : Option (BitVec 128) := (toU64 v).map fun n => BitVec.ofNat 128 n.toNat

def toU32 (v : JsonValue) : Option UInt32 :=
  (toU64 v).bind fun n => if n.toNat < 2 ^ 32 then some n.toUInt32 else none

def toU8 (v : JsonValue) : Option UInt8 :=
  (toU64 v).bind fun n => if n.toNat < 2 ^ 8 then some n.toUInt8 else none

def toText : JsonValue → Option String
  | .string s => some s
  | _ => none

def toHash32 (v : JsonValue) : Option Hash32 := (toText v).bind Hash32.fromHex

def toAddress (v : JsonValue) : Option Address := (toText v).bind Address.fromHex

/-- The elements of an array, if all of them are bytes. -/
def toBytes : List JsonValue → Option Bytes
  | [] => some []
  | v :: vs => do
    let b ← toU8 v
    let bs ← toBytes vs
    some (b :: bs)

/-- A `Vec<u8>` is an array. -/
def toVec : JsonValue → Option Bytes
  | .array items => toBytes items
  | _ => none

def optional {α : Type} (read : JsonValue → Option α) : JsonValue → Option (Option α)
  | .null => some none
  | v => (read v).map some

/-- A member that must be there. -/
def field {α : Type} (read : JsonValue → Option α) (key : String)
    (members : List (String × JsonValue)) : Option α := (members.lookup key).bind read

/-- A member of an optional field may be missing. -/
def optionalField {α : Type} (read : JsonValue → Option α) (key : String)
    (members : List (String × JsonValue)) : Option (Option α) :=
  match members.lookup key with
  | some v => optional read v
  | none => some none

end Serde

open Serde

namespace Transaction

/-- The members of the object, the two amounts as they were written. -/
def members (keccak256 : Bytes → Hash32) (tx : Transaction) (value gasPrice : JsonValue) :
    List (String × JsonValue) := [
  ("chain_id", ofU64 tx.chainId),
  ("hash", .string tx.hash.display),
  ("block_number", ofU64 tx.blockNumber),
  ("block_hash", .string tx.blockHash.display),
  ("from", .string (tx.fromAddress.checksumHex keccak256)),
  ("to", match tx.toAddress with
    | some a => .string (a.checksumHex keccak256)
    | none => .null),
  ("value", value),
  ("gas", ofU64 tx.gas),
  ("gas_price", gasPrice),
  ("input", .array (tx.input.map fun b => ofU64 b.toUInt64)),
  ("nonce", ofU64 tx.nonce),
  ("transaction_index", ofU64 tx.transactionIndex.toUInt64)]

def toValue (keccak256 : Bytes → Hash32) (tx : Transaction) : Option JsonValue := do
  let value ← ofU128 tx.value
  let gasPrice ← ofOption ofU128 tx.gasPrice
  some (.object (tx.members keccak256 value gasPrice))

/-- `serde_json::from_value`, of an object or of an array with one element for each field. -/
def fromValue : JsonValue → Option Transaction
  | .object ms => do
    let chainId ← field toU64 "chain_id" ms
    let hash ← field toHash32 "hash" ms
    let blockNumber ← field toU64 "block_number" ms
    let blockHash ← field toHash32 "block_hash" ms
    let fromAddress ← field Serde.toAddress "from" ms
    let toAddress ← optionalField Serde.toAddress "to" ms
    let value ← field toU128 "value" ms
    let gas ← field toU64 "gas" ms
    let gasPrice ← optionalField toU128 "gas_price" ms
    let input ← field toVec "input" ms
    let nonce ← field toU64 "nonce" ms
    let transactionIndex ← field toU32 "transaction_index" ms
    some { chainId, hash, blockNumber, blockHash, fromAddress, toAddress, value, gas, gasPrice,
           input, nonce, transactionIndex }
  | .array [v₀, v₁, v₂, v₃, v₄, v₅, v₆, v₇, v₈, v₉, v₁₀, v₁₁] => do
    let chainId ← toU64 v₀
    let hash ← toHash32 v₁
    let blockNumber ← toU64 v₂
    let blockHash ← toHash32 v₃
    let fromAddress ← Serde.toAddress v₄
    let toAddress ← optional Serde.toAddress v₅
    let value ← toU128 v₆
    let gas ← toU64 v₇
    let gasPrice ← optional toU128 v₈
    let input ← toVec v₉
    let nonce ← toU64 v₁₀
    let transactionIndex ← toU32 v₁₁
    some { chainId, hash, blockNumber, blockHash, fromAddress, toAddress, value, gas, gasPrice,
           input, nonce, transactionIndex }
  | _ => none

/-- The amounts are `u64`s. -/
def Fits (tx : Transaction) : Prop :=
  tx.value.toNat < 2 ^ 64 ∧ ∀ p, tx.gasPrice = some p → p.toNat < 2 ^ 64

end Transaction

section RoundTrip

variable {keccak256 : Bytes → Hash32}

theorem toU128_ofU128 {n : BitVec 128} {v : JsonValue} (h : ofU128 n = some v) :
    toU128 v = some n := by
  unfold ofU128 at h
  split_ifs at h with hn
  cases h
  show some (BitVec.ofNat 128 (UInt64.ofNat n.toNat).toNat) = some n
  rw [UInt64.toNat_ofNat', Nat.mod_eq_of_lt hn, BitVec.ofNat_toNat, BitVec.setWidth_eq]

theorem toU32_ofU64 (n : UInt32) : toU32 (ofU64 n.toUInt64) = some n := by
  have hn : n.toUInt64.toNat < 2 ^ 32 := by
    rw [UInt32.toNat_toUInt64]
    exact n.toNat_lt
  show (if n.toUInt64.toNat < 2 ^ 32 then some n.toUInt64.toUInt32 else none) = some n
  rw [if_pos hn, UInt32.toUInt32_toUInt64]

theorem toU8_ofU64 (b : UInt8) : toU8 (ofU64 b.toUInt64) = some b := by
  have hb : b.toUInt64.toNat < 2 ^ 8 := by
    rw [UInt8.toNat_toUInt64]
    exact b.toNat_lt
  show (if b.toUInt64.toNat < 2 ^ 8 then some b.toUInt64.toUInt8 else none) = some b
  rw [if_pos hb, UInt8.toUInt8_toUInt64]

theorem toBytes_map (bs : Bytes) : toBytes (bs.map fun b => ofU64 b.toUInt64) = some bs := by
  induction bs with
  | nil => rfl
  | cons b bs ih =>
    rw [List.map_cons, toBytes, toU8_ofU64, ih]
    rfl

theorem optional_toU128 {p : Option (BitVec 128)} {v : JsonValue}
    (h : ofOption ofU128 p = some v) : optional toU128 v = some p := by
  cases p with
  | none =>
    cases h
    rfl
  | some p =>
    have hvalue : ofU128 p = some v := h
    have hread := toU128_ofU128 hvalue
    have hnumber : optional toU128 v = (toU128 v).map some := by
      unfold ofU128 at hvalue
      split_ifs at hvalue
      cases hvalue
      rfl
    rw [hnumber, hread]
    rfl

theorem optional_toAddress (a : Option Address) :
    optional Serde.toAddress (match a with
      | some a => .string (a.checksumHex keccak256)
      | none => .null) = some a := by
  cases a with
  | none => rfl
  | some a => exact congrArg (Option.map some) (Address.fromHex_checksumHex keccak256 a)

theorem Transaction.fromValue_toValue {tx : Transaction} {v : JsonValue}
    (h : tx.toValue keccak256 = some v) : Transaction.fromValue v = some tx := by
  unfold Transaction.toValue at h
  obtain ⟨value, hvalue, h⟩ := Option.bind_eq_some_iff.mp h
  obtain ⟨gasPrice, hgasPrice, h⟩ := Option.bind_eq_some_iff.mp h
  cases h
  have hhash (x : Hash32) : toHash32 (.string x.display) = some x := Hash32.fromHex_display x
  have h₁ : field toHash32 "hash" (tx.members keccak256 value gasPrice) = some tx.hash :=
    hhash tx.hash
  have h₃ : field toHash32 "block_hash" (tx.members keccak256 value gasPrice) =
      some tx.blockHash := hhash tx.blockHash
  have h₄ : field Serde.toAddress "from" (tx.members keccak256 value gasPrice) =
      some tx.fromAddress := Address.fromHex_checksumHex keccak256 tx.fromAddress
  have h₅ : optionalField Serde.toAddress "to" (tx.members keccak256 value gasPrice) =
      some tx.toAddress := optional_toAddress tx.toAddress
  have h₆ : field toU128 "value" (tx.members keccak256 value gasPrice) = some tx.value :=
    toU128_ofU128 hvalue
  have h₈ : optionalField toU128 "gas_price" (tx.members keccak256 value gasPrice) =
      some tx.gasPrice := optional_toU128 hgasPrice
  have h₉ : field toVec "input" (tx.members keccak256 value gasPrice) = some tx.input :=
    toBytes_map tx.input
  have h₁₁ : field toU32 "transaction_index" (tx.members keccak256 value gasPrice) =
      some tx.transactionIndex := toU32_ofU64 tx.transactionIndex
  rw [Transaction.fromValue, h₁, h₃, h₄, h₅, h₆, h₈, h₉, h₁₁]
  rfl

theorem isSome_ofU128 (n : BitVec 128) : (ofU128 n).isSome ↔ n.toNat < 2 ^ 64 := by
  unfold ofU128
  split_ifs with h
  · exact iff_of_true rfl h
  · exact iff_of_false Bool.false_ne_true h

theorem Transaction.isSome_toValue (tx : Transaction) :
    (tx.toValue keccak256).isSome ↔ tx.Fits := by
  unfold Transaction.toValue Transaction.Fits
  rw [← isSome_ofU128]
  cases hvalue : ofU128 tx.value with
  | none => exact iff_of_false Bool.false_ne_true fun h => Bool.false_ne_true h.1
  | some value =>
    cases hprice : tx.gasPrice with
    | none => exact iff_of_true rfl ⟨rfl, fun _ h => by cases h⟩
    | some p =>
      have hp := isSome_ofU128 p
      cases hgas : ofU128 p with
      | none =>
        rw [hgas] at hp
        show (ofU128 p >>= fun _ => _).isSome ↔ _
        rw [hgas]
        exact iff_of_false Bool.false_ne_true fun h => Bool.false_ne_true (hp.mpr (h.2 p rfl))
      | some v =>
        rw [hgas] at hp
        show (ofU128 p >>= fun _ => _).isSome ↔ _
        rw [hgas]
        refine iff_of_true rfl ⟨rfl, fun q hq => ?_⟩
        cases hq
        exact hp.mp rfl

end RoundTrip

/-- What a lookup can fail with; the text of `sqlx::Error::Decode` is left out. -/
inductive CacheError where
  | database (e : SqlxError)
  | decode

/-- A row of `ponder_sync.transactions`. -/
structure TransactionRow where
  chainId : Int64
  txHash : String
  blockNumber : Int64
  raw : JsonValue

/-- `PRIMARY KEY (chain_id, tx_hash)`. -/
def TransactionRow.key (r : TransactionRow) : Int64 × String := (r.chainId, r.txHash)

/-- The cache database with its transactions. -/
structure TransactionCache where
  rpc : RpcCache
  transactions : List TransactionRow

def TransactionCache.empty : TransactionCache := ⟨RpcCache.empty, []⟩

section Store

variable (keccak256 : Bytes → Hash32) (fate : ℕ → Fate)

/-- Sending a statement, which leaves the rows alone. -/
def TransactionCache.send : Proc TransactionCache CacheError Unit := fun w =>
  let r := Proc.mapErr CacheError.database (sendCache fate) w.rpc
  (r.1, { w with rpc := r.2 })

/-- The values bound to `$1` to `$4`; a transaction that cannot be written has the default value. -/
def transactionRow (chainId : UInt64) (tx : Transaction) : TransactionRow where
  chainId := chainId.toInt64
  txHash := tx.hash.display
  blockNumber := tx.blockNumber.toInt64
  raw := (tx.toValue keccak256).getD .null

namespace RpcCacheStore

def getTransaction (chainId : UInt64) (hash : Hash32) :
    Proc TransactionCache CacheError (Option Transaction) := do
  TransactionCache.send fate
  let w ← Proc.get
  match w.transactions.find? fun r => r.key = (chainId.toInt64, hash.display) with
  | some r =>
    match Transaction.fromValue r.raw with
    | some tx => pure (some tx)
    | none => Proc.fail .decode
  | none => pure none

/-- `RpcCacheStore::put_transaction`, an `INSERT ... ON CONFLICT DO NOTHING`. -/
def putTransaction (chainId : UInt64) (tx : Transaction) :
    Proc TransactionCache CacheError Unit := do
  TransactionCache.send fate
  Proc.modify fun w => { w with
    transactions := FirstWins.insertNew (fun r s => decide (s.key = r.key)) w.transactions
      (transactionRow keccak256 chainId tx) }

end RpcCacheStore

/-- What `CachedRpcClient::get_transaction` is made of. -/
def transactionReads : ReadThrough TransactionCache CacheError (UInt64 × Hash32) Transaction where
  get k := RpcCacheStore.getTransaction fate k.1 k.2
  put k tx := RpcCacheStore.putTransaction keccak256 fate k.1 tx
  hit w := { w with rpc := { w.rpc with hits := w.rpc.hits + 1 } }
  miss w := { w with rpc := { w.rpc with misses := w.rpc.misses + 1 } }

/-- `CachedRpcClient::get_transaction` over an `RpcClient` that answers as `inner`. -/
def CachedRpcClient.getTransaction {ε : Type} (inner : Hash32 → Except ε Transaction)
    (chainId : UInt64) (hash : Hash32) : Proc TransactionCache ε Transaction :=
  (transactionReads keccak256 fate).read (fun k => inner k.2) (chainId, hash)

end Store

section Reads

variable {keccak256 : Bytes → Hash32} {fate : ℕ → Fate}

variable (fate) in
theorem send_cases (w : TransactionCache) :
    ∃ rpc, TransactionCache.send fate w = (.ok (), { w with rpc }) ∨
      (∃ e, TransactionCache.send fate w = (.err e, { w with rpc })) ∨
      TransactionCache.send fate w = (.stopped, { w with rpc }) := by
  unfold TransactionCache.send Proc.mapErr sendCache
  cases hfate : fate w.rpc.clock with
  | executed => exact ⟨_, .inl rfl⟩
  | rejected => exact ⟨_, .inr (.inl ⟨_, rfl⟩)⟩
  | killed => exact ⟨_, .inr (.inr rfl)⟩

/-- The row of a transaction is read back if its amounts fit, and is not read at all otherwise. -/
theorem fromValue_transactionRow (chainId : UInt64) (tx : Transaction) :
    Transaction.fromValue (transactionRow keccak256 chainId tx).raw = some tx ∧ tx.Fits ∨
      Transaction.fromValue (transactionRow keccak256 chainId tx).raw = none ∧ ¬tx.Fits := by
  have hfits : (tx.toValue keccak256).isSome ↔ tx.Fits := tx.isSome_toValue
  unfold transactionRow
  cases hvalue : tx.toValue keccak256 with
  | some v =>
    rw [hvalue] at hfits
    exact .inl ⟨Transaction.fromValue_toValue hvalue, hfits.mp rfl⟩
  | none =>
    rw [hvalue] at hfits
    exact .inr ⟨rfl, fun h => Bool.false_ne_true (hfits.mpr h)⟩

theorem getTransaction_of_sent {chainId : UInt64} {hash : Hash32} {w w' : TransactionCache}
    (h : TransactionCache.send fate w = (.ok (), w')) :
    RpcCacheStore.getTransaction fate chainId hash w =
      match w'.transactions.find? fun r => r.key = (chainId.toInt64, hash.display) with
      | some r =>
        match Transaction.fromValue r.raw with
        | some tx => (.ok (some tx), w')
        | none => (.err .decode, w')
      | none => (.ok none, w') := by
  unfold RpcCacheStore.getTransaction
  rw [Proc.bind_of_ok h]
  show (match w'.transactions.find? fun r => r.key = (chainId.toInt64, hash.display) with
    | some r =>
      match Transaction.fromValue r.raw with
      | some tx => pure (some tx)
      | none => Proc.fail .decode
    | none => pure none : Proc TransactionCache CacheError (Option Transaction)) w' = _
  cases w'.transactions.find? fun r => r.key = (chainId.toInt64, hash.display) with
  | none => rfl
  | some r =>
    dsimp only
    cases Transaction.fromValue r.raw with
    | none => rfl
    | some tx => rfl

/-- The table of the transactions. -/
def transactionTable (keccak256 : Bytes → Hash32) (fate : ℕ → Fate) :
    (transactionReads keccak256 fate).Table TransactionRow (Int64 × String) where
  rows w := w.transactions
  rowKey := TransactionRow.key
  key k := (k.1.toInt64, k.2.display)
  row k tx := transactionRow keccak256 k.1 tx
  value r := Transaction.fromValue r.raw
  rows_get k w := by
    show (RpcCacheStore.getTransaction fate k.1 k.2 w).2.transactions = _
    obtain ⟨rpc, hsend | ⟨e, hsend⟩ | hsend⟩ := send_cases fate w
    · rw [getTransaction_of_sent hsend]
      split
      · split
        · rfl
        · rfl
      · rfl
    · rw [RpcCacheStore.getTransaction, Proc.bind_of_err hsend]
    · rw [RpcCacheStore.getTransaction, Proc.bind_of_stopped hsend]
  get_eq k w x hx := by
    have hget : (RpcCacheStore.getTransaction fate k.1 k.2 w).1 = .ok x := hx
    obtain ⟨rpc, hsend | ⟨e, hsend⟩ | hsend⟩ := send_cases fate w
    · rw [getTransaction_of_sent hsend] at hget
      dsimp only at hget
      cases hfind : w.transactions.find? fun r => r.key = (k.1.toInt64, k.2.display) with
      | none =>
        rw [hfind] at hget
        cases hget
        rfl
      | some r =>
        rw [hfind] at hget
        dsimp only at hget
        cases hvalue : Transaction.fromValue r.raw with
        | none =>
          rw [hvalue] at hget
          cases hget
        | some tx =>
          rw [hvalue] at hget
          cases hget
          exact hvalue.symm
    · rw [RpcCacheStore.getTransaction, Proc.bind_of_err hsend] at hget
      cases hget
    · rw [RpcCacheStore.getTransaction, Proc.bind_of_stopped hsend] at hget
      cases hget
  rows_put k tx w := by
    show (RpcCacheStore.putTransaction keccak256 fate k.1 tx w).2.transactions = _ ∨ _
    obtain ⟨rpc, hsend | ⟨e, hsend⟩ | hsend⟩ := send_cases fate w
    · refine .inr ?_
      show (RpcCacheStore.putTransaction keccak256 fate k.1 tx w).2.transactions = _
      rw [RpcCacheStore.putTransaction, Proc.bind_of_ok hsend]
      rfl
    · refine .inl ?_
      rw [RpcCacheStore.putTransaction, Proc.bind_of_err hsend]
    · refine .inl ?_
      rw [RpcCacheStore.putTransaction, Proc.bind_of_stopped hsend]
  rows_hit _ := rfl
  rows_miss _ := rfl

theorem display_inj {x y : Hash32} (h : x.display = y.display) : x = y := by
  have hread := congrArg Hash32.fromHex h
  rw [Hash32.fromHex_display, Hash32.fromHex_display] at hread
  exact Option.some.inj hread

theorem eq_of_fromValue {chainId : UInt64} {tx tx' : Transaction}
    (h : Transaction.fromValue (transactionRow keccak256 chainId tx).raw = some tx') :
    tx' = tx ∧ tx.Fits := by
  rcases fromValue_transactionRow chainId tx with ⟨hread, hfits⟩ | ⟨hread, -⟩
  · rw [hread] at h
    cases h
    exact ⟨rfl, hfits⟩
  · rw [hread] at h
    cases h

variable {T : Type} [DecidableEq T] {request : T → UInt64 × Hash32}

theorem getTransaction_hit {actions : List (ReadThrough.Action Transaction T)} {t : T}
    {tx : Transaction}
    (h : ((transactionReads keccak256 fate).run request .empty actions).phase t =
      .served true tx) :
    tx.hash = (request t).2 ∧ tx.Fits ∧ ∃ hash, (((request t).1, hash), tx) ∈
      ((transactionReads keccak256 fate).run request .empty actions).answers := by
  have hkept : (transactionTable keccak256 fate).Kept request .empty
      ((transactionReads keccak256 fate).run request .empty actions) :=
    ReadThrough.Table.kept_run TransactionCache.empty actions
  rcases ReadThrough.Table.served_run (transactionTable keccak256 fate) h with
    ⟨hfalse, -⟩ | ⟨-, hheld⟩
  · cases hfalse
  rcases hkept.held_from hheld with ⟨r, hr, -⟩ | ⟨⟨chainId, hash⟩, tx', hmem, hkey, hvalue⟩
  · exact absurd hr List.not_mem_nil
  obtain ⟨rfl, hfits⟩ := eq_of_fromValue hvalue
  have hchain : chainId = (request t).1 := toInt64_inj (congrArg Prod.fst hkey)
  have hhash : tx.hash = (request t).2 := display_inj (congrArg Prod.snd hkey)
  subst hchain
  exact ⟨hhash, hfits, hash, hmem⟩

/-- Reads of transactions by any number of calls at the same time, over clients of several chains,
while statements to the cache fail.  What is returned comes from the node of its chain: as the
answer to this call, or, when it comes from the cache, as an answer with the hash that was asked for
and with amounts that fit into `u64`s.  The cache returns the same for a hash every time, and if the
node does too, nobody can tell that there is a cache. -/
theorem getTransaction_runs (request : T → UInt64 × Hash32)
    (actions : List (ReadThrough.Action Transaction T)) :
    let s := (transactionReads keccak256 fate).run request .empty actions
    (∀ t hit tx, s.phase t = .served hit tx →
      (hit = false ∧ (request t, tx) ∈ s.answers) ∨
      (hit = true ∧ tx.hash = (request t).2 ∧ tx.Fits ∧
        ∃ hash, (((request t).1, hash), tx) ∈ s.answers)) ∧
    (∀ t u tx tx', s.phase t = .served true tx → s.phase u = .served true tx' →
      request t = request u → tx = tx') ∧
    ∀ node : UInt64 → Hash32 → Transaction, (∀ c hash, (node c hash).hash = hash) →
      (∀ x ∈ s.answers, x.2 = node x.1.1 x.1.2) →
      ∀ t hit tx, s.phase t = .served hit tx → tx = node (request t).1 (request t).2 := by
  intro s
  have hserved : ∀ t hit tx, s.phase t = .served hit tx →
      (hit = false ∧ (request t, tx) ∈ s.answers) ∨
      (hit = true ∧ tx.hash = (request t).2 ∧ tx.Fits ∧
        ∃ hash, (((request t).1, hash), tx) ∈ s.answers) := by
    intro t hit tx h
    cases hit with
    | true => exact .inr ⟨rfl, getTransaction_hit h⟩
    | false =>
      rcases ReadThrough.Table.served_run (transactionTable keccak256 fate) h with
        hasked | ⟨htrue, -⟩
      · exact .inl hasked
      · cases htrue
  refine ⟨hserved, ?_, ?_⟩
  · intro t u tx tx' ht hu hrequest
    exact ReadThrough.Table.hits_agree (transactionTable keccak256 fate) ht hu
      (congrArg (transactionTable keccak256 fate).key hrequest)
  · intro node hnode hanswers t hit tx h
    rcases hserved t hit tx h with ⟨-, hmem⟩ | ⟨-, hhash, -, hash, hmem⟩
    · exact hanswers _ hmem
    · have htx : tx = node (request t).1 hash := hanswers _ hmem
      -- the node was asked for the hash of what it answered
      have hsame : hash = (request t).2 := by
        rw [← hhash, htx, hnode]
      rw [← hsame]
      exact htx

end Reads

end ForgeIndex
