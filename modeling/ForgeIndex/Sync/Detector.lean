import Mathlib.Data.List.DropRight
import ForgeIndex.Sync.Types

/-!
# The reorg detector

`forge-index-sync/src/reorg/chain_state.rs` and `reorg/detector.rs`.  The node is asked through a
function from block numbers to answers.
-/

namespace ForgeIndex

/-- `ChainState`, oldest block first. -/
structure ChainState where
  recentBlocks : List (UInt64 × Hash32)
  capacity : ℕ

namespace ChainState

def defaultCapacity : ℕ := 128

def new (capacity : ℕ) : ChainState := ⟨[], capacity⟩

def push (s : ChainState) (number : UInt64) (hash : Hash32) : ChainState :=
  let kept := if s.capacity ≤ s.recentBlocks.length then s.recentBlocks.tail else s.recentBlocks
  { s with recentBlocks := kept ++ [(number, hash)] }

def getHash (s : ChainState) (number : UInt64) : Option Hash32 :=
  (s.recentBlocks.find? fun b => b.1 = number).map Prod.snd

def latestBlock (s : ChainState) : Option (UInt64 × Hash32) := s.recentBlocks.getLast?

/-- `ChainState::prune_above`: from the back, as long as the numbers are larger. -/
def pruneAbove (s : ChainState) (blockNumber : UInt64) : ChainState :=
  { s with recentBlocks := s.recentBlocks.rdropWhile fun b => decide (blockNumber < b.1) }

def isEmpty (s : ChainState) : Bool := s.recentBlocks.isEmpty

end ChainState

inductive ReorgDecision where
  | normal
  | reorg (chainId forkBlock newTip : UInt64)
  deriving DecidableEq, Repr

/-- What `get_block_by_number` of a chain's client answers; `none` for a chain without a client. -/
abbrev BlockClients := UInt64 → Option (UInt64 → Except String Block)

/-- `ReorgDetector::chain_states`. -/
abbrev ReorgDetector := UInt64 → Option ChainState

namespace ReorgDetector

/-- One round of the walk back: the fork starts after a block that is not stored or stored with
the hash of the node. -/
def walkStep (getBlockByNumber : UInt64 → Except String Block) (state : ChainState)
    (chainId : UInt64) (minBlock currentNumber : ℕ)
    (next : Except SyncError (Option UInt64)) : Except SyncError (Option UInt64) :=
  if currentNumber < minBlock then .ok none
  else
    match getBlockByNumber (UInt64.ofNat currentNumber) with
    | .error source => .error (.rpc chainId source)
    | .ok rpcBlock =>
      match state.getHash (UInt64.ofNat currentNumber) with
      | some storedHash =>
        if storedHash = rpcBlock.hash then .ok (some (UInt64.ofNat currentNumber + 1)) else next
      | none => .ok (some (UInt64.ofNat currentNumber + 1))

/-- The `while` loop of `find_fork_point`, which also ends at block 0. -/
def walkBack (getBlockByNumber : UInt64 → Except String Block) (state : ChainState)
    (chainId : UInt64) (minBlock : ℕ) : ℕ → Except SyncError (Option UInt64)
  | 0 => walkStep getBlockByNumber state chainId minBlock 0 (.ok none)
  | n + 1 => walkStep getBlockByNumber state chainId minBlock (n + 1)
      (walkBack getBlockByNumber state chainId minBlock n)

def findForkPoint (clients : BlockClients) (d : ReorgDetector) (chainId : UInt64)
    (newBlock : Block) : Except SyncError UInt64 :=
  match clients chainId, d chainId with
  | some getBlockByNumber, some state => do
    let tip := newBlock.number.toNat
    match ← walkBack getBlockByNumber state chainId (tip - ChainState.defaultCapacity) (tip - 1) with
    | some fork => pure fork
    | none => .error (.deepReorg chainId (UInt64.ofNat ChainState.defaultCapacity))
  | _, _ => .error (.chainNotFound chainId)

/-- The state of a chain after `entry(chain_id).or_default()`. -/
def stateOf (d : ReorgDetector) (chainId : UInt64) : ChainState :=
  (d chainId).getD (ChainState.new ChainState.defaultCapacity)

/-- `state.push(block.number, block.hash)`, and the decision for it. -/
def accept (d : ReorgDetector) (chainId : UInt64) (block : Block) :
    Except SyncError ReorgDecision × ReorgDetector :=
  (.ok .normal, Function.update d chainId
    (some ((d.stateOf chainId).push block.number block.hash)))

def processBlock (clients : BlockClients) (d : ReorgDetector) (chainId : UInt64) (block : Block) :
    Except SyncError ReorgDecision × ReorgDetector :=
  let state := d.stateOf chainId
  if state.isEmpty then d.accept chainId block
  else if block.number = 0 then d.accept chainId block
  else
    match state.getHash (block.number - 1) with
    | none => d.accept chainId block
    | some storedHash =>
      if storedHash = block.parentHash then d.accept chainId block
      else
        match findForkPoint clients d chainId block with
        | .error e => (.error e, d)
        | .ok forkBlock =>
          let last := if forkBlock = 0 then 0 else forkBlock - 1
          (.ok (.reorg chainId forkBlock block.number),
            Function.update d chainId (some (state.pruneAbove last)))

def seedBlock (d : ReorgDetector) (chainId number : UInt64) (hash : Hash32) : ReorgDetector :=
  Function.update d chainId (some ((d.stateOf chainId).push number hash))

end ReorgDetector

end ForgeIndex
