import Mathlib.Data.List.Nodup
import ForgeIndex.Rpc.LogCache

/-!
# Logs of a receipt

`RpcClient::get_transaction_receipt` of `forge-index-rpc/src/client.rs` and `Log::from_alloy` of
`forge-index-core/src/types/log.rs`.  The one numbers the logs of a receipt by their place in it,
the other takes the index that the node gives to a log within its block.
-/

namespace ForgeIndex

inductive RpcError where
  | transport (message : String)
  | rateLimit (chainId : UInt64)
  | timeout (method : String)
  | decode (method message : String)
  | noWebSocket (chainId : UInt64)
  | maxRetriesExceeded (method : String) (attempts : UInt32)
  deriving DecidableEq

def RpcError.isRetryable : RpcError → Bool
  | .transport _ | .rateLimit _ | .timeout _ => true
  | _ => false

namespace RpcClient

section Retry

variable {α : Type}

/-- The attempts from the n-th on, as many as are left. -/
def attemptFrom (method : String) (ask : ℕ → Except RpcError α) : ℕ → ℕ → Except RpcError α
  | _, 0 => .error (.maxRetriesExceeded method 5)
  | n, left + 1 =>
    match ask n with
    | .ok v => .ok v
    | .error e => if e.isRetryable then attemptFrom method ask (n + 1) left else .error e

/-- `retry::with_retry`: one attempt and four retries. -/
def withRetry (method : String) (ask : ℕ → Except RpcError α) : Except RpcError α :=
  attemptFrom method ask 0 5

theorem attemptFrom_ok {method : String} {ask : ℕ → Except RpcError α} {left n : ℕ} {v : α}
    (h : attemptFrom method ask n left = .ok v) : ∃ k, ask k = .ok v := by
  induction left generalizing n with
  | zero => cases h
  | succ left ih =>
    unfold attemptFrom at h
    split at h
    · next hask =>
      cases h
      exact ⟨n, hask⟩
    · split at h
      · exact ih h
      · cases h

theorem withRetry_ok {method : String} {ask : ℕ → Except RpcError α} {v : α}
    (h : withRetry method ask = .ok v) : ∃ k, ask k = .ok v := attemptFrom_ok h

end Retry

end RpcClient

/-- What is read of `alloy::rpc::types::Log`. -/
structure AlloyLog where
  address : Address
  topics : List Hash32
  data : Bytes
  blockHash : Option Hash32
  blockNumber : Option UInt64
  transactionHash : Option Hash32
  transactionIndex : Option UInt64
  logIndex : Option UInt64

/-- What is read of `alloy::rpc::types::TransactionReceipt`. -/
structure AlloyReceipt where
  logs : List AlloyLog
  transactionHash : Hash32
  transactionIndex : Option UInt64
  blockHash : Option Hash32
  blockNumber : Option UInt64
  fromAddress : Address
  toAddress : Option Address
  gasUsed : ℕ
  status : Bool
  contractAddress : Option Address

structure TransactionReceipt where
  transactionHash : Hash32
  blockNumber : UInt64
  blockHash : Hash32
  fromAddress : Address
  toAddress : Option Address
  gasUsed : UInt64
  status : Bool
  logs : List Log
  contractAddress : Option Address

def Log.fromAlloy (log : AlloyLog) (chainId : UInt64) : Log :=
  let blockHash := log.blockHash.getD Hash32.zero
  let logIndex := (log.logIndex.getD 0).toUInt32
  { id := logId blockHash.display logIndex.toNat
    chainId := chainId
    address := log.address
    topics := log.topics
    data := log.data
    blockNumber := log.blockNumber.getD 0
    blockHash := blockHash
    transactionHash := log.transactionHash.getD Hash32.zero
    logIndex := logIndex
    transactionIndex := (log.transactionIndex.getD 0).toUInt32
    removed := false }

namespace RpcClient

/-- The `Log` of the i-th log of a receipt. -/
def receiptLog (receipt : AlloyReceipt) (chainId : UInt64) (i : ℕ) (l : AlloyLog) : Log :=
  let blockHash := receipt.blockHash.getD Hash32.zero
  { id := logId blockHash.display i
    chainId := chainId
    address := l.address
    topics := l.topics
    data := l.data
    blockNumber := receipt.blockNumber.getD 0
    blockHash := blockHash
    transactionHash := receipt.transactionHash
    logIndex := UInt32.ofNat i
    transactionIndex := (receipt.transactionIndex.getD 0).toUInt32
    removed := false }

/-- What `get_transaction_receipt` makes of the receipt of the node. -/
def readReceipt (receipt : AlloyReceipt) (chainId : UInt64) : TransactionReceipt where
  transactionHash := receipt.transactionHash
  blockNumber := receipt.blockNumber.getD 0
  blockHash := receipt.blockHash.getD Hash32.zero
  fromAddress := receipt.fromAddress
  toAddress := receipt.toAddress
  gasUsed := UInt64.ofNat receipt.gasUsed
  status := receipt.status
  logs := receipt.logs.zipIdx.map fun l => receiptLog receipt chainId l.2 l.1
  contractAddress := receipt.contractAddress

/-- `RpcClient::get_transaction_receipt` over the answers of the provider to each attempt. -/
def getTransactionReceipt (provider : ℕ → Except String (Option AlloyReceipt)) (chainId : UInt64) :
    Except RpcError TransactionReceipt :=
  (withRetry "eth_getTransactionReceipt" fun n =>
    match provider n with
    | .error message => .error (.transport message)
    | .ok none => .error (.decode "eth_getTransactionReceipt" "receipt not found")
    | .ok (some receipt) => .ok receipt).map fun receipt => readReceipt receipt chainId

/-- The client has read this receipt, after failed attempts or none. -/
def Fetched (chainId : UInt64) (receipt : AlloyReceipt) (result : TransactionReceipt) : Prop :=
  ∃ provider, (∀ n answer, provider n = .ok answer → answer = some receipt) ∧
    getTransactionReceipt provider chainId = .ok result

theorem Fetched.eq {chainId : UInt64} {receipt : AlloyReceipt} {result : TransactionReceipt}
    (h : Fetched chainId receipt result) : result = readReceipt receipt chainId := by
  obtain ⟨provider, hprovider, hresult⟩ := h
  unfold getTransactionReceipt at hresult
  cases hretry : withRetry "eth_getTransactionReceipt" fun n =>
    match provider n with
    | .error message => .error (.transport message)
    | .ok none => .error (.decode "eth_getTransactionReceipt" "receipt not found")
    | .ok (some receipt) => .ok receipt with
  | error e =>
    rw [hretry] at hresult
    cases hresult
  | ok got =>
    rw [hretry] at hresult
    obtain ⟨k, hk⟩ := withRetry_ok hretry
    split at hk
    · cases hk
    · cases hk
    · next answer hanswer =>
      cases hk
      cases hprovider k _ hanswer
      exact (Except.ok.inj hresult).symm

end RpcClient

/-- What a contract emits. -/
structure EmittedLog where
  address : Address
  topics : List Hash32
  data : Bytes

structure MinedTransaction where
  hash : Hash32
  fromAddress : Address
  toAddress : Option Address
  gasUsed : ℕ
  status : Bool
  contractAddress : Option Address
  logs : List EmittedLog

structure MinedBlock where
  number : UInt64
  hash : Hash32
  transactions : List MinedTransaction

namespace MinedBlock

/-- The log as a node shows it: the log index counts through the block. -/
def rpcLog (b : MinedBlock) (txIndex : ℕ) (tx : MinedTransaction) (l : EmittedLog × ℕ) : AlloyLog where
  address := l.1.address
  topics := l.1.topics
  data := l.1.data
  blockHash := some b.hash
  blockNumber := some b.number
  transactionHash := some tx.hash
  transactionIndex := some (UInt64.ofNat txIndex)
  logIndex := some (UInt64.ofNat l.2)

/-- The receipt of a transaction that has `before` logs of the block ahead of it. -/
def receipt (b : MinedBlock) (txIndex before : ℕ) (tx : MinedTransaction) : AlloyReceipt where
  logs := (tx.logs.zipIdx before).map (b.rpcLog txIndex tx)
  transactionHash := tx.hash
  transactionIndex := some (UInt64.ofNat txIndex)
  blockHash := some b.hash
  blockNumber := some b.number
  fromAddress := tx.fromAddress
  toAddress := tx.toAddress
  gasUsed := tx.gasUsed
  status := tx.status
  contractAddress := tx.contractAddress

def receiptsFrom (b : MinedBlock) : ℕ → ℕ → List MinedTransaction → List AlloyReceipt
  | _, _, [] => []
  | txIndex, before, tx :: txs =>
    b.receipt txIndex before tx :: b.receiptsFrom (txIndex + 1) (before + tx.logs.length) txs

/-- The receipts of the block, in order. -/
def receipts (b : MinedBlock) : List AlloyReceipt := b.receiptsFrom 0 0 b.transactions

/-- The logs of the block as `eth_getLogs` answers them, through `Log::from_alloy`. -/
def logsByFilter (b : MinedBlock) (chainId : UInt64) : List Log :=
  (b.receipts.flatMap AlloyReceipt.logs).map fun l => Log.fromAlloy l chainId

/-- The number of logs of a list of transactions. -/
def logCount (txs : List MinedTransaction) : ℕ := (txs.map fun tx => tx.logs.length).sum

end MinedBlock

/-- The id, the log index and the block and transaction fields. -/
def Log.place (l : Log) : String × UInt32 × UInt64 × Hash32 × Hash32 × UInt32 :=
  (l.id, l.logIndex, l.blockNumber, l.blockHash, l.transactionHash, l.transactionIndex)

namespace MinedBlock

variable {b : MinedBlock} {chainId : UInt64}

theorem logId_inj {hash : String} {i j : ℕ} (h : logId hash i = logId hash j) : i = j := by
  unfold logId at h
  have hlist := congrArg String.toList h
  simp only [String.toList_append, List.append_cancel_left_eq] at hlist
  have hdigits : Nat.toDigits 10 i = Nat.toDigits 10 j := by
    rw [← Nat.toList_repr, ← Nat.toList_repr]
    exact hlist
  have hread := congrArg (fun ds => Nat.ofDigitChars 10 ds 0) hdigits
  simpa using hread

/-- The place of a log that has the number `j`. -/
def placeOf (b : MinedBlock) (txIndex : ℕ) (tx : MinedTransaction) (j : ℕ) :
    String × UInt32 × UInt64 × Hash32 × Hash32 × UInt32 :=
  (logId b.hash.display j, UInt32.ofNat j, b.number, b.hash, tx.hash,
    (UInt64.ofNat txIndex).toUInt32)

theorem place_fromAlloy (b : MinedBlock) (chainId : UInt64) (txIndex : ℕ) (tx : MinedTransaction)
    (l : EmittedLog × ℕ) :
    (Log.fromAlloy (b.rpcLog txIndex tx l) chainId).place =
      b.placeOf txIndex tx (l.2 % 2 ^ 32) := by
  have hindex : (UInt64.ofNat l.2).toUInt32 = UInt32.ofNat (l.2 % 2 ^ 32) := by
    apply UInt32.toNat_inj.mp
    rw [UInt64.toNat_toUInt32, UInt64.toNat_ofNat', UInt32.toNat_ofNat']
    omega
  have hnat : (UInt32.ofNat (l.2 % 2 ^ 32)).toNat = l.2 % 2 ^ 32 := by
    rw [UInt32.toNat_ofNat']
    omega
  show (logId b.hash.display (UInt64.ofNat l.2).toUInt32.toNat, (UInt64.ofNat l.2).toUInt32, b.number,
    b.hash, tx.hash, (UInt64.ofNat txIndex).toUInt32) = _
  rw [hindex, hnat]
  rfl

/-- The places of the logs of `eth_getLogs`, for the transactions from one on. -/
def filterPlaces (b : MinedBlock) :
    ℕ → ℕ → List MinedTransaction → List (String × UInt32 × UInt64 × Hash32 × Hash32 × UInt32)
  | _, _, [] => []
  | txIndex, before, tx :: txs =>
    (List.range' before tx.logs.length).map (fun j => b.placeOf txIndex tx (j % 2 ^ 32)) ++
      b.filterPlaces (txIndex + 1) (before + tx.logs.length) txs

/-- The places of the logs of the receipts. -/
def receiptPlaces (b : MinedBlock) :
    ℕ → List MinedTransaction → List (String × UInt32 × UInt64 × Hash32 × Hash32 × UInt32)
  | _, [] => []
  | txIndex, tx :: txs =>
    (List.range tx.logs.length).map (b.placeOf txIndex tx) ++ b.receiptPlaces (txIndex + 1) txs

theorem map_zipIdx_snd {α β : Type} (l : List α) (n : ℕ) (g : ℕ → β) :
    (l.zipIdx n).map (fun p => g p.2) = (List.range' n l.length).map g := by
  rw [← List.zipIdx_map_snd n l, List.map_map]
  rfl

theorem place_logsByFilter (b : MinedBlock) (chainId : UInt64) :
    (b.logsByFilter chainId).map Log.place = b.filterPlaces 0 0 b.transactions := by
  have hfrom : ∀ (txs : List MinedTransaction) (txIndex before : ℕ),
      (((b.receiptsFrom txIndex before txs).flatMap AlloyReceipt.logs).map fun l =>
        (Log.fromAlloy l chainId).place) = b.filterPlaces txIndex before txs := by
    intro txs
    induction txs with
    | nil => exact fun _ _ => rfl
    | cons tx txs ih =>
      intro txIndex before
      rw [receiptsFrom, List.flatMap_cons, List.map_append, ih, filterPlaces, receipt, List.map_map]
      congr 1
      rw [← map_zipIdx_snd]
      apply List.map_congr_left
      intro l _
      exact place_fromAlloy b chainId txIndex tx l
  unfold logsByFilter receipts
  rw [List.map_map]
  exact hfrom b.transactions 0 0

theorem place_receipts (b : MinedBlock) (chainId : UInt64) {results : List TransactionReceipt}
    (h : List.Forall₂ (RpcClient.Fetched chainId) b.receipts results) :
    (results.flatMap TransactionReceipt.logs).map Log.place = b.receiptPlaces 0 b.transactions := by
  have hfrom : ∀ (txs : List MinedTransaction) (txIndex before : ℕ) {results},
      List.Forall₂ (RpcClient.Fetched chainId) (b.receiptsFrom txIndex before txs) results →
        (results.flatMap TransactionReceipt.logs).map Log.place = b.receiptPlaces txIndex txs := by
    intro txs
    induction txs with
    | nil =>
      intro _ _ _ h
      cases h
      rfl
    | cons tx txs ih =>
      intro txIndex before results h
      cases h with
      | cons hfetched hrest =>
        rw [List.flatMap_cons, List.map_append, ih _ _ hrest, receiptPlaces, hfetched.eq]
        congr 1
        have hlogs : (RpcClient.readReceipt (b.receipt txIndex before tx) chainId).logs.map Log.place =
            ((b.receipt txIndex before tx).logs.zipIdx.map fun l => b.placeOf txIndex tx l.2) := by
          unfold RpcClient.readReceipt
          rw [List.map_map]
          rfl
        rw [hlogs, map_zipIdx_snd, List.range_eq_range', receipt, List.length_map,
          List.length_zipIdx]
  exact hfrom b.transactions 0 0 h

theorem logCount_cons (tx : MinedTransaction) (txs : List MinedTransaction) :
    logCount (tx :: txs) = tx.logs.length + logCount txs := rfl

theorem filterPlaces_ids (b : MinedBlock) (txs : List MinedTransaction) (txIndex before : ℕ) :
    (b.filterPlaces txIndex before txs).map Prod.fst =
      (List.range' before (logCount txs)).map fun j => logId b.hash.display (j % 2 ^ 32 : ℕ) := by
  induction txs generalizing txIndex before with
  | nil => rfl
  | cons tx txs ih =>
    have hrange : List.range' before tx.logs.length ++
        List.range' (before + tx.logs.length) (logCount txs) =
          List.range' before (tx.logs.length + logCount txs) := List.range'_append_1
    rw [filterPlaces, List.map_append, ih, logCount_cons, ← hrange, List.map_append, List.map_map]
    rfl

/-- The ids of `eth_getLogs` are distinct as long as the index of a log fits in 32 bits. -/
theorem filterPlaces_ids_nodup_iff (b : MinedBlock) :
    ((b.filterPlaces 0 0 b.transactions).map Prod.fst).Nodup ↔
      logCount b.transactions ≤ 2 ^ 32 := by
  rw [filterPlaces_ids, ← List.range_eq_range']
  constructor
  · intro h
    by_contra hlarge
    have hinj := List.inj_on_of_nodup_map h
    have hzero : 0 ∈ List.range (logCount b.transactions) := List.mem_range.mpr (by omega)
    have hwrap : 2 ^ 32 ∈ List.range (logCount b.transactions) := List.mem_range.mpr (by omega)
    have heq := hinj hzero hwrap (by simp)
    omega
  · intro h
    apply List.Nodup.map_on _ List.nodup_range
    intro i hi j hj heq
    have hmod := logId_inj heq
    rw [List.mem_range] at hi hj
    omega

theorem mem_receiptPlaces (b : MinedBlock) {txs : List MinedTransaction} {tx : MinedTransaction}
    (htx : tx ∈ txs) (hlogs : tx.logs ≠ []) (txIndex : ℕ) :
    logId b.hash.display (0 : ℕ) ∈ (b.receiptPlaces txIndex txs).map Prod.fst := by
  induction txs generalizing txIndex with
  | nil => cases htx
  | cons t txs ih =>
    rw [receiptPlaces, List.map_append, List.mem_append]
    rcases List.mem_cons.mp htx with rfl | htx
    · apply Or.inl
      rw [List.map_map]
      have hpos := List.length_pos_iff.mpr hlogs
      exact List.mem_map.mpr ⟨0, List.mem_range.mpr hpos, rfl⟩
    · exact Or.inr (ih htx (txIndex + 1))

theorem countP_of_receiptPlaces_nodup (b : MinedBlock) {txs : List MinedTransaction} {txIndex : ℕ}
    (h : ((b.receiptPlaces txIndex txs).map Prod.fst).Nodup) :
    (txs.countP fun tx => !tx.logs.isEmpty) ≤ 1 := by
  induction txs generalizing txIndex with
  | nil => exact Nat.zero_le 1
  | cons tx txs ih =>
    rw [receiptPlaces, List.map_append] at h
    have hrest := ih h.of_append_right
    rw [List.countP_cons]
    by_cases hlogs : tx.logs = []
    · simpa [hlogs] using hrest
    · have hone := mem_receiptPlaces b (List.mem_singleton_self tx) hlogs txIndex
      rw [receiptPlaces, receiptPlaces, List.append_nil] at hone
      have hnone : (txs.countP fun tx => !tx.logs.isEmpty) = 0 := by
        apply List.countP_eq_zero.mpr
        intro t ht hsome
        have hnil : t.logs ≠ [] := by simpa using hsome
        exact List.disjoint_of_nodup_append h hone (mem_receiptPlaces b ht hnil (txIndex + 1))
      rw [hnone]
      split <;> omega

theorem places_eq_nil (b : MinedBlock) {txs : List MinedTransaction}
    (h : (txs.countP fun tx => !tx.logs.isEmpty) = 0) (txIndex before : ℕ) :
    b.receiptPlaces txIndex txs = [] ∧ b.filterPlaces txIndex before txs = [] := by
  induction txs generalizing txIndex before with
  | nil => exact ⟨rfl, rfl⟩
  | cons tx txs ih =>
    rw [List.countP_cons] at h
    have hlogs : tx.logs = [] := by
      by_contra hne
      simp [hne] at h
    have hrest := ih (by omega) (txIndex + 1) (before + tx.logs.length)
    unfold receiptPlaces filterPlaces
    rw [hrest.1, hrest.2, hlogs]
    exact ⟨rfl, rfl⟩

/-- The receipt of the only transaction with logs numbers them as the block does. -/
theorem receiptPlaces_eq (b : MinedBlock) {txs : List MinedTransaction}
    (hone : (txs.countP fun tx => !tx.logs.isEmpty) ≤ 1) (hcount : logCount txs ≤ 2 ^ 32)
    (txIndex : ℕ) : b.receiptPlaces txIndex txs = b.filterPlaces txIndex 0 txs := by
  induction txs generalizing txIndex with
  | nil => rfl
  | cons tx txs ih =>
    rw [List.countP_cons] at hone
    rw [logCount_cons] at hcount
    unfold receiptPlaces filterPlaces
    by_cases hlogs : tx.logs = []
    · rw [hlogs, ih (by omega) (by omega)]
      rfl
    · have hnone : (txs.countP fun tx => !tx.logs.isEmpty) = 0 := by
        have hhead : (!tx.logs.isEmpty) = true := by simpa using hlogs
        rw [if_pos hhead] at hone
        omega
      have hrest := places_eq_nil b hnone (txIndex + 1) (0 + tx.logs.length)
      rw [hrest.1, hrest.2, List.range_eq_range']
      congr 1
      apply List.map_congr_left
      intro j hj
      rw [List.mem_range'_1] at hj
      rw [Nat.mod_eq_of_lt (by omega)]

/-- The logs of the receipts have the places of the logs of `eth_getLogs`, and the ids of both are
unique in the block, if and only if one transaction at most has logs and these can be counted in 32
bits. -/
theorem receipts_agree_iff (b : MinedBlock) (chainId : UInt64) {results : List TransactionReceipt}
    (h : List.Forall₂ (RpcClient.Fetched chainId) b.receipts results) :
    ((results.flatMap TransactionReceipt.logs).map Log.place =
        (b.logsByFilter chainId).map Log.place ∧
      ((results.flatMap TransactionReceipt.logs).map Log.id).Nodup ∧
      ((b.logsByFilter chainId).map Log.id).Nodup) ↔
    (b.transactions.countP fun tx => !tx.logs.isEmpty) ≤ 1 ∧
      logCount b.transactions ≤ 2 ^ 32 := by
  have hids (ls : List Log) : ls.map Log.id = (ls.map Log.place).map Prod.fst := by
    rw [List.map_map]
    rfl
  rw [hids, hids, place_receipts b chainId h, place_logsByFilter, filterPlaces_ids_nodup_iff]
  constructor
  · intro ⟨_, hreceipts, hcount⟩
    exact ⟨countP_of_receiptPlaces_nodup b hreceipts, hcount⟩
  · intro ⟨hone, hcount⟩
    have hplaces := receiptPlaces_eq b hone hcount 0
    rw [hplaces]
    exact ⟨rfl, (filterPlaces_ids_nodup_iff b).mpr hcount, hcount⟩

/-- A transaction with so many logs. -/
def txWithLogs (n : ℕ) : MinedTransaction :=
  ⟨Hash32.zero, Address.zero, none, 21000, true, none,
    List.replicate n ⟨Address.zero, [], []⟩⟩

theorem fetched_second (receipt : AlloyReceipt) (chainId : UInt64) :
    RpcClient.Fetched chainId receipt (RpcClient.readReceipt receipt chainId) := by
  refine ⟨fun n => if n = 0 then .error "timed out" else .ok (some receipt), ?_, rfl⟩
  intro n answer h
  dsimp only at h
  split at h
  · cases h
  · exact (Except.ok.inj h).symm

theorem fetched_all (b : MinedBlock) (chainId : UInt64) :
    List.Forall₂ (RpcClient.Fetched chainId) b.receipts
      (b.receipts.map fun receipt => RpcClient.readReceipt receipt chainId) := by
  rw [List.forall₂_map_right_iff]
  exact List.forall₂_same.mpr fun receipt _ => fetched_second receipt chainId

/-- Two logs in one transaction, between two without logs. -/
theorem receipts_agree_iff_one :
    let b : MinedBlock := ⟨7, Hash32.zero, [txWithLogs 0, txWithLogs 2, txWithLogs 0]⟩
    let results := b.receipts.map fun receipt => RpcClient.readReceipt receipt 1
    (results.flatMap TransactionReceipt.logs).length = 2 ∧
      (results.flatMap TransactionReceipt.logs).map Log.place =
        (b.logsByFilter 1).map Log.place := by
  intro b results
  exact ⟨by decide, ((receipts_agree_iff b 1 (fetched_all b 1)).mpr (by decide)).1⟩

/-- One log in each of two transactions: the second one is number 1 of the block and number 0 of its
receipt. -/
theorem receipts_disagree :
    let b : MinedBlock := ⟨7, Hash32.zero, [txWithLogs 1, txWithLogs 1]⟩
    let results := b.receipts.map fun receipt => RpcClient.readReceipt receipt 1
    List.Forall₂ (RpcClient.Fetched 1) b.receipts results ∧
      (results.flatMap TransactionReceipt.logs).map Log.logIndex = [0, 0] ∧
      (b.logsByFilter 1).map Log.logIndex = [0, 1] ∧
      ¬((results.flatMap TransactionReceipt.logs).map Log.id).Nodup := by
  intro b results
  exact ⟨fetched_all b 1, by decide, by decide, by decide +kernel⟩

end MinedBlock

end ForgeIndex
