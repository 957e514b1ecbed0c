import ForgeIndex.Lib.Along
import ForgeIndex.Lib.Window
import ForgeIndex.Sync.Detector

/-!
# What the detector remembers

Runs of calls of the detector from a new one, and the order in which a chain's blocks are stored.
-/

namespace ForgeIndex

namespace ChainState

/-- The block numbers go up. -/
def Ascending (s : ChainState) : Prop := s.recentBlocks.Pairwise fun a b => a.1 < b.1

/-- What the documentation of `ChainState` says of its blocks, of `latest_block` and of
`prune_above`. -/
structure Ordered (s : ChainState) : Prop where
  ascending : s.Ascending
  latest : ∀ b ∈ s.recentBlocks, ∃ top, s.latestBlock = some top ∧ b.1 ≤ top.1
  pruned : ∀ n, ∀ b ∈ (s.pruneAbove n).recentBlocks, b.1 ≤ n

/-- The check of `process_block` that looks at the parent only. -/
def passes (s : ChainState) (block : Block) : Bool :=
  s.isEmpty || block.number = 0 ||
    (s.getHash (block.number - 1)).all fun storedHash => storedHash = block.parentHash

instance : IsTrans (UInt64 × Hash32) fun a b => a.1 < b.1 := ⟨fun _ _ _ h h' => UInt64.lt_trans h h'⟩

@[simp] theorem capacity_push (s : ChainState) (n : UInt64) (h : Hash32) :
    (s.push n h).capacity = s.capacity := rfl

@[simp] theorem capacity_pruneAbove (s : ChainState) (n : UInt64) :
    (s.pruneAbove n).capacity = s.capacity := rfl

theorem recentBlocks_push (s : ChainState) (n : UInt64) (h : Hash32) :
    (s.push n h).recentBlocks = Window.enqueue s.capacity s.recentBlocks (n, h) := rfl

theorem recentBlocks_pruneAbove {s : ChainState} (h : s.Ascending) (n : UInt64) :
    (s.pruneAbove n).recentBlocks = s.recentBlocks.filter fun b => decide (b.1 ≤ n) := by
  have hup : s.recentBlocks.Pairwise fun a b =>
      decide (n < a.1) = true → decide (n < b.1) = true := by
    apply h.imp
    intro a b hab hna
    have hlt : n < b.1 := UInt64.lt_trans (of_decide_eq_true hna) hab
    exact decide_eq_true hlt
  show s.recentBlocks.rdropWhile _ = _
  rw [Window.rdropWhile_eq_filter hup]
  congr 1
  funext b
  have hle : (b.1 ≤ n) = ¬n < b.1 := by rw [UInt64.not_lt]
  rw [← decide_not]
  simp only [hle]

theorem Ascending.pruneAbove {s : ChainState} (h : s.Ascending) (n : UInt64) :
    (s.pruneAbove n).Ascending :=
  List.Pairwise.sublist (List.rdropWhile_prefix _ _).sublist h

theorem Ascending.ordered {s : ChainState} (h : s.Ascending) : s.Ordered where
  ascending := h
  latest := by
    intro b hb
    rcases List.eq_nil_or_concat' s.recentBlocks with hnil | ⟨front, top, hlist⟩
    · rw [hnil] at hb
      exact absurd hb List.not_mem_nil
    · refine ⟨top, by rw [latestBlock, hlist, List.getLast?_concat], ?_⟩
      have hpair := h
      unfold Ascending at hpair
      rw [hlist] at hpair hb
      rcases List.mem_append.mp hb with hfront | hb
      · apply UInt64.le_of_lt
        exact (List.pairwise_append.mp hpair).2.2 b hfront top (List.mem_singleton_self top)
      · rw [List.mem_singleton.mp hb]
        exact UInt64.le_refl _
  pruned := by
    intro n b hb
    rw [recentBlocks_pruneAbove h] at hb
    exact of_decide_eq_true (List.mem_filter.mp hb).2

theorem getHash_pruneAbove (s : ChainState) {n k : UInt64} (hk : k ≤ n) :
    (s.pruneAbove n).getHash k = s.getHash k := by
  unfold getHash pruneAbove
  dsimp only
  rw [Window.find?_rdropWhile]
  intro b hb
  have hbk : b.1 = k := of_decide_eq_true hb
  rw [hbk]
  exact decide_eq_false (UInt64.not_lt.mpr hk)

end ChainState

namespace ReorgDetector

def new : ReorgDetector := fun _ => none

/-- A block that is given to the detector, and what the chains' clients answer meanwhile. -/
structure Delivery where
  clients : BlockClients
  chainId : UInt64
  block : Block

/-- The calls that change the detector. -/
inductive Call where
  | processBlock (x : Delivery)
  | seedBlock (chainId number : UInt64) (hash : Hash32)

/-- The decision on a block. -/
def decision (d : ReorgDetector) (x : Delivery) : Except SyncError ReorgDecision :=
  (d.processBlock x.clients x.chainId x.block).1

/-- The detector after a block. -/
def feed (d : ReorgDetector) (x : Delivery) : ReorgDetector :=
  (d.processBlock x.clients x.chainId x.block).2

namespace Call

/-- The detector after a call. -/
def apply (d : ReorgDetector) : Call → ReorgDetector
  | processBlock x => d.feed x
  | seedBlock chainId number hash => d.seedBlock chainId number hash

def chainId : Call → UInt64
  | processBlock x => x.chainId
  | seedBlock chainId _ _ => chainId

def number : Call → UInt64
  | processBlock x => x.block.number
  | seedBlock _ number _ => number

def hash : Call → Hash32
  | processBlock x => x.block.hash
  | seedBlock _ _ hash => hash

/-- The call stores its block. -/
def stores (d : ReorgDetector) : Call → Bool
  | processBlock x => (d.stateOf x.chainId).passes x.block
  | seedBlock _ _ _ => true

end Call

theorem stateOf_update (d : ReorgDetector) (chainId : UInt64) (s : ChainState) (c : UInt64) :
    stateOf (Function.update d chainId (some s)) c = if c = chainId then s else d.stateOf c := by
  unfold stateOf
  rw [Function.update_apply]
  split_ifs <;> rfl

theorem processBlock_of_passes {d : ReorgDetector} {clients : BlockClients} {chainId : UInt64}
    {block : Block} (h : (d.stateOf chainId).passes block = true) :
    d.processBlock clients chainId block = d.accept chainId block := by
  unfold ChainState.passes at h
  unfold processBlock
  dsimp only
  split_ifs with hempty hzero
  · rfl
  · rfl
  · split
    · rfl
    · next storedHash hstored =>
      rw [hstored] at h
      have heq : storedHash = block.parentHash := by simpa [hempty, hzero] using h
      rw [if_pos heq]

theorem processBlock_of_not_passes {d : ReorgDetector} {clients : BlockClients}
    {chainId : UInt64} {block : Block} (h : (d.stateOf chainId).passes block = false) :
    d.processBlock clients chainId block =
      match findForkPoint clients d chainId block with
      | .error e => (.error e, d)
      | .ok forkBlock =>
        (.ok (.reorg chainId forkBlock block.number), Function.update d chainId
          (some ((d.stateOf chainId).pruneAbove (if forkBlock = 0 then 0 else forkBlock - 1)))) := by
  unfold ChainState.passes at h
  unfold processBlock
  dsimp only
  split_ifs with hempty hzero
  · simp [hempty] at h
  · simp [hzero] at h
  · split
    · next hstored => simp [hempty, hzero, hstored] at h
    · next storedHash hstored =>
      have hne : ¬storedHash = block.parentHash := by
        rw [hstored] at h
        simpa [hempty, hzero] using h
      rewrite [if_neg hne]
      cases findForkPoint clients d chainId block <;> rfl

theorem decision_eq_normal_iff {d : ReorgDetector} {x : Delivery} :
    d.decision x = .ok .normal ↔ (d.stateOf x.chainId).passes x.block = true := by
  unfold decision
  cases h : (d.stateOf x.chainId).passes x.block with
  | true => simp [processBlock_of_passes h, accept]
  | false =>
    rw [processBlock_of_not_passes h]
    split <;> simp

/-- What a call leaves in a chain: the block pushed, or the old blocks pruned at the back. -/
theorem stateOf_apply (d : ReorgDetector) (call : Call) (c : UInt64) :
    (c = call.chainId ∧ call.stores d = true ∧
      stateOf (call.apply d) c = (d.stateOf c).push call.number call.hash) ∨
    (¬(c = call.chainId ∧ call.stores d = true) ∧ (stateOf (call.apply d) c = d.stateOf c ∨
      ∃ n, stateOf (call.apply d) c = (d.stateOf c).pruneAbove n)) := by
  cases call with
  | seedBlock chainId number hash =>
    show (c = chainId ∧ _ ∧ stateOf (Function.update d chainId _) c = _) ∨ _
    rw [stateOf_update]
    by_cases hc : c = chainId
    · left
      rw [if_pos hc, hc]
      exact ⟨rfl, rfl, rfl⟩
    · right
      refine ⟨fun h => hc h.1, .inl ?_⟩
      show stateOf (Function.update d chainId _) c = _
      rw [stateOf_update, if_neg hc]
  | processBlock x =>
    show (c = x.chainId ∧ (d.stateOf x.chainId).passes x.block = true ∧
      stateOf (d.processBlock x.clients x.chainId x.block).2 c = _) ∨
      (¬(c = x.chainId ∧ (d.stateOf x.chainId).passes x.block = true) ∧
        (stateOf (d.processBlock x.clients x.chainId x.block).2 c = _ ∨
          ∃ n, stateOf (d.processBlock x.clients x.chainId x.block).2 c = _))
    cases h : (d.stateOf x.chainId).passes x.block with
    | true =>
      rw [processBlock_of_passes h]
      show (_ ∧ _ ∧ stateOf (Function.update d x.chainId _) c = _) ∨
        (_ ∧ (stateOf (Function.update d x.chainId _) c = _ ∨ _))
      rw [stateOf_update]
      by_cases hc : c = x.chainId
      · left
        rw [if_pos hc, hc]
        exact ⟨rfl, rfl, rfl⟩
      · right
        rw [if_neg hc]
        exact ⟨fun h => hc h.1, .inl rfl⟩
    | false =>
      right
      refine ⟨fun h => absurd h.2 (by decide), ?_⟩
      rw [processBlock_of_not_passes h]
      split
      · exact .inl rfl
      · next forkBlock hfork =>
        dsimp only
        by_cases hc : c = x.chainId
        · right
          refine ⟨if forkBlock = 0 then 0 else forkBlock - 1, ?_⟩
          rw [stateOf_update, if_pos hc, hc]
        · left
          rw [stateOf_update, if_neg hc]

theorem capacity_apply (d : ReorgDetector) (call : Call) (c : UInt64) :
    (stateOf (call.apply d) c).capacity = (d.stateOf c).capacity := by
  rcases stateOf_apply d call c with ⟨-, -, hpush⟩ | ⟨-, hsame | ⟨n, hprune⟩⟩
  · rw [hpush, ChainState.capacity_push]
  · rw [hsame]
  · rw [hprune, ChainState.capacity_pruneAbove]

/-- The blocks of every chain stand in the order `r`. -/
def StoredInOrder (r : UInt64 × Hash32 → UInt64 × Hash32 → Prop) (d : ReorgDetector) : Prop :=
  ∀ c, (d.stateOf c).capacity = ChainState.defaultCapacity ∧ (d.stateOf c).recentBlocks.Pairwise r

theorem storedInOrder_new (r : UInt64 × Hash32 → UInt64 × Hash32 → Prop) : new.StoredInOrder r :=
  fun _ => ⟨rfl, List.Pairwise.nil⟩

/-- A call keeps the order exactly when the block that it stores comes after the latest one. -/
theorem storedInOrder_apply_iff {r : UInt64 × Hash32 → UInt64 × Hash32 → Prop}
    [IsTrans (UInt64 × Hash32) r] {d : ReorgDetector} (h : d.StoredInOrder r) (call : Call) :
    StoredInOrder r (call.apply d) ↔ (call.stores d = true →
      ∀ top, (d.stateOf call.chainId).latestBlock = some top → r top (call.number, call.hash)) := by
  have hcap (c : UInt64) : 2 ≤ (d.stateOf c).capacity := by
    rw [(h c).1]
    decide
  constructor
  · intro h' hstores
    rcases stateOf_apply d call call.chainId with ⟨-, -, hpush⟩ | ⟨hnot, -⟩
    · have hpair := (h' call.chainId).2
      rw [hpush, ChainState.recentBlocks_push,
        Window.pairwise_enqueue_iff (hcap _) (h call.chainId).2] at hpair
      exact hpair
    · exact absurd ⟨rfl, hstores⟩ hnot
  · intro htop c
    refine ⟨(capacity_apply d call c).trans (h c).1, ?_⟩
    rcases stateOf_apply d call c with ⟨hc, hstores, hpush⟩ | ⟨-, hsame | ⟨n, hprune⟩⟩
    · rw [hpush, ChainState.recentBlocks_push, Window.pairwise_enqueue_iff (hcap _) (h c).2, hc]
      exact htop hstores
    · rw [hsame]
      exact (h c).2
    · rw [hprune]
      exact List.Pairwise.sublist (List.rdropWhile_prefix _ _).sublist (h c).2

/-- The call stores no block or one with a number above that of the latest block. -/
def Call.Ascends (d : ReorgDetector) (call : Call) : Prop :=
  call.stores d = true →
    ∀ top, (d.stateOf call.chainId).latestBlock = some top → top.1 < call.number

/-- All states of a run are in the documented order if and only if no call stores a block that is
not above the latest one. -/
theorem run_ordered_iff (calls : List Call) :
    (∀ pre, pre <+: calls → ∀ c, (stateOf (pre.foldl Call.apply new) c).Ordered) ↔
      Along Call.apply Call.Ascends new calls := by
  have hordered {d : ReorgDetector} (h : ∀ c, (d.stateOf c).capacity = ChainState.defaultCapacity) :
      (∀ c, (d.stateOf c).Ordered) ↔ d.StoredInOrder fun a b => a.1 < b.1 := by
    constructor
    · intro hd c
      exact ⟨h c, (hd c).ascending⟩
    · intro hd c
      exact ChainState.Ascending.ordered (hd c).2
  have hcapacity {d : ReorgDetector} (h : d.StoredInOrder fun a b => a.1 < b.1) (call : Call)
      (c : UInt64) : (stateOf (call.apply d) c).capacity = ChainState.defaultCapacity :=
    (capacity_apply d call c).trans (h c).1
  have hiff (d : ReorgDetector) (call : Call) (h : d.StoredInOrder fun a b => a.1 < b.1) :
      (∀ c, (stateOf (call.apply d) c).Ordered) ↔ call.Ascends d := by
    rw [hordered (hcapacity h call), storedInOrder_apply_iff h call]
    rfl
  rw [forall_states_iff (I := fun d => ∀ c, (stateOf d c).Ordered)]
  have hnew : ∀ c, (stateOf new c).Ordered :=
    (hordered fun _ => rfl).mpr (storedInOrder_new fun a b => a.1 < b.1)
  rw [and_iff_right hnew]
  apply along_iff_of_invariant (I := StoredInOrder fun a b => a.1 < b.1) hiff
  · intro d call h hstep
    exact (hordered (hcapacity h call)).mp hstep
  · exact storedInOrder_new _

/-- A hash of one repeated byte. -/
def repeated (b : UInt8) : Hash32 := ⟨List.replicate 32 b, by simp⟩

/-- A block of chain 1. -/
def makeBlock (number : UInt64) (hash parentHash : UInt8) : Block where
  chainId := 1
  number := number
  hash := repeated hash
  parentHash := repeated parentHash
  timestamp := 0
  gasLimit := 0
  gasUsed := 0
  baseFeePerGas := none
  miner := Address.zero

/-- A block of chain 1 that is given to a detector without clients. -/
def delivered (block : Block) : Delivery := ⟨fun _ => none, 1, block⟩

/-- Blocks 1 and 2, and then another block 2 with the same parent. -/
def siblings : List Delivery :=
  [delivered (makeBlock 1 1 0), delivered (makeBlock 2 2 1), delivered (makeBlock 2 12 1)]

/-- Both blocks 2 are stored. -/
theorem run_not_ordered :
    (stateOf ((siblings.map Call.processBlock).foldl Call.apply new) 1).recentBlocks =
        [(1, repeated 1), (2, repeated 2), (2, repeated 12)] ∧
      ¬∀ pre, pre <+: siblings.map Call.processBlock →
        ∀ c, (stateOf (pre.foldl Call.apply new) c).Ordered := by
  have hstored : (stateOf ((siblings.map Call.processBlock).foldl Call.apply new) 1).recentBlocks =
      [(1, repeated 1), (2, repeated 2), (2, repeated 12)] := by decide
  refine ⟨hstored, fun h => ?_⟩
  have hpair := (h _ (List.prefix_refl _) 1).ascending
  unfold ChainState.Ascending at hpair
  rw [hstored] at hpair
  exact absurd hpair (by decide)

/-- A block that is accepted replaces no stored block: none has its number and another hash, and
none is above it.  A sibling of the latest block shows a reorg. -/
structure Recognised (d : ReorgDetector) (x : Delivery) : Prop where
  newest : d.decision x = .ok .normal → ∀ b ∈ (d.stateOf x.chainId).recentBlocks,
    b.1 ≤ x.block.number ∧ (b.1 = x.block.number → b.2 = x.block.hash)
  sibling : ∀ hash, (d.stateOf x.chainId).latestBlock = some (x.block.number, hash) →
    hash ≠ x.block.hash →
    (d.stateOf x.chainId).getHash (x.block.number - 1) = some x.block.parentHash →
    ∃ f, d.decision x = .ok (.reorg x.chainId f x.block.number)

/-- The block does not pass the check of its parent, or it is above the latest block, or it is the
latest block again. -/
def Extends (d : ReorgDetector) (x : Delivery) : Prop :=
  (d.stateOf x.chainId).passes x.block = true →
    ∀ top, (d.stateOf x.chainId).latestBlock = some top →
      top.1 < x.block.number ∨ top = (x.block.number, x.block.hash)

/-- The order that a block delivered again leaves. -/
def Follows (a b : UInt64 × Hash32) : Prop := a.1 < b.1 ∨ a = b

instance : IsTrans (UInt64 × Hash32) Follows where
  trans := by
    intro a b c hab hbc
    rcases hab with hab | rfl
    · rcases hbc with hbc | rfl
      · exact .inl (UInt64.lt_trans hab hbc)
      · exact .inl hab
    · exact hbc

theorem recognised_iff_extends {d : ReorgDetector} (h : d.StoredInOrder Follows) (x : Delivery) :
    d.Recognised x ↔ d.Extends x := by
  constructor
  · intro hd hpasses top htop
    have hmem := List.mem_of_getLast? htop
    obtain ⟨hle, heq⟩ := hd.newest (decision_eq_normal_iff.mpr hpasses) top hmem
    by_cases hnumber : top.1 = x.block.number
    · exact .inr (Prod.ext hnumber (heq hnumber))
    · exact .inl (UInt64.lt_of_le_of_ne hle hnumber)
  · intro hd
    constructor
    · intro hnormal b hb
      have hpasses := decision_eq_normal_iff.mp hnormal
      have hfollows : Follows b (x.block.number, x.block.hash) := by
        -- the other stored blocks come before the latest one
        have hpair := (h x.chainId).2
        rcases List.eq_nil_or_concat' (d.stateOf x.chainId).recentBlocks with hnil | ⟨l, top, hl⟩
        · rw [hnil] at hb
          exact absurd hb List.not_mem_nil
        · have htop : Follows top (x.block.number, x.block.hash) :=
            hd hpasses top (by rw [ChainState.latestBlock, hl, List.getLast?_concat])
          rw [hl] at hb hpair
          rcases List.mem_append.mp hb with hb | hb
          · have hbt := (List.pairwise_append.mp hpair).2.2 b hb top (List.mem_singleton_self top)
            exact IsTrans.trans b top _ hbt htop
          · rw [List.mem_singleton.mp hb]
            exact htop
      rcases hfollows with hlt | heq
      · exact ⟨UInt64.le_of_lt hlt, fun h => absurd hlt (by rw [h]; exact UInt64.lt_irrefl _)⟩
      · rw [heq]
        exact ⟨UInt64.le_refl _, fun _ => rfl⟩
    · intro hash htop hne hparent
      -- a sibling of the latest block passes the check, and it is neither above it nor that block
      have hpasses : (d.stateOf x.chainId).passes x.block = true := by
        unfold ChainState.passes
        rw [hparent]
        simp
      rcases hd hpasses _ htop with hlt | heq
      · exact absurd hlt (UInt64.lt_irrefl _)
      · exact absurd (congrArg Prod.snd heq) hne

/-- No block that replaces a stored one is accepted in a run, if and only if every block that
passes the check of its parent is above the latest block or is that block again. -/
theorem run_recognised_iff (xs : List Delivery) :
    Along feed Recognised new xs ↔ Along feed Extends new xs := by
  apply along_iff_of_invariant (I := StoredInOrder Follows)
  · intro d x h
    exact recognised_iff_extends h x
  · intro d x h hd
    apply (storedInOrder_apply_iff h (.processBlock x)).mpr
    exact (recognised_iff_extends h x).mp hd
  · exact storedInOrder_new Follows

/-- The other block 2 is accepted. -/
theorem run_not_recognised :
    ((siblings.take 2).foldl feed new).decision (delivered (makeBlock 2 12 1)) = .ok .normal ∧
      ¬Along feed Recognised new siblings := by
  refine ⟨by decide, ?_⟩
  rw [run_recognised_iff]
  rintro ⟨-, -, h, -⟩
  rcases h (by decide) (2, repeated 2) (by decide) with hlt | heq
  · exact absurd hlt (by decide)
  · exact absurd heq (by decide)

end ReorgDetector

end ForgeIndex
