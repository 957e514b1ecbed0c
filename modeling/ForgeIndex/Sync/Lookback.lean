import Mathlib.Order.Bounds.Basic
import ForgeIndex.Sync.ForkPoint

/-!
# How far the detector looks back

The walk back with the heights that the node is asked for, what it finds, and how deep a reorg can
be against the depth from which `realtime/finality.rs` takes a block for final.
-/

namespace ForgeIndex

namespace ReorgDetector

/-- `walkStep`, with the heights that the node is asked for. -/
def walkStepAsking (getBlockByNumber : UInt64 → Except String Block) (state : ChainState)
    (chainId : UInt64) (minBlock currentNumber : ℕ)
    (next : Except SyncError (Option UInt64) × List UInt64) :
    Except SyncError (Option UInt64) × List UInt64 :=
  if currentNumber < minBlock then (.ok none, [])
  else
    match getBlockByNumber (UInt64.ofNat currentNumber) with
    | .error source => (.error (.rpc chainId source), [UInt64.ofNat currentNumber])
    | .ok rpcBlock =>
      match state.getHash (UInt64.ofNat currentNumber) with
      | some storedHash =>
        if storedHash = rpcBlock.hash then
          (.ok (some (UInt64.ofNat currentNumber + 1)), [UInt64.ofNat currentNumber])
        else (next.1, UInt64.ofNat currentNumber :: next.2)
      | none => (.ok (some (UInt64.ofNat currentNumber + 1)), [UInt64.ofNat currentNumber])

/-- `walkBack`, with the heights that the node is asked for. -/
def walkBackAsking (getBlockByNumber : UInt64 → Except String Block) (state : ChainState)
    (chainId : UInt64) (minBlock : ℕ) : ℕ → Except SyncError (Option UInt64) × List UInt64
  | 0 => walkStepAsking getBlockByNumber state chainId minBlock 0 (.ok none, [])
  | n + 1 => walkStepAsking getBlockByNumber state chainId minBlock (n + 1)
      (walkBackAsking getBlockByNumber state chainId minBlock n)

/-- `find_fork_point`, with the heights that the node is asked for. -/
def findForkPointAsking (clients : BlockClients) (d : ReorgDetector) (chainId : UInt64)
    (newBlock : Block) : Except SyncError UInt64 × List UInt64 :=
  match clients chainId, d chainId with
  | some getBlockByNumber, some state =>
    let tip := newBlock.number.toNat
    match walkBackAsking getBlockByNumber state chainId (tip - ChainState.defaultCapacity)
        (tip - 1) with
    | (.ok (some fork), asked) => (.ok fork, asked)
    | (.ok none, asked) =>
      (.error (.deepReorg chainId (UInt64.ofNat ChainState.defaultCapacity)), asked)
    | (.error e, asked) => (.error e, asked)
  | _, _ => (.error (.chainNotFound chainId), [])

section Asking

variable (getBlockByNumber : UInt64 → Except String Block) (state : ChainState) (chainId : UInt64)
  (minBlock : ℕ)

theorem walkStepAsking_fst (n : ℕ) (next : Except SyncError (Option UInt64) × List UInt64) :
    (walkStepAsking getBlockByNumber state chainId minBlock n next).1 =
      walkStep getBlockByNumber state chainId minBlock n next.1 := by
  unfold walkStepAsking walkStep
  split_ifs
  · rfl
  · cases getBlockByNumber (UInt64.ofNat n) with
    | error source => rfl
    | ok rpcBlock =>
      cases state.getHash (UInt64.ofNat n) with
      | none => rfl
      | some storedHash =>
        dsimp only
        split_ifs <;> rfl

theorem walkStepAsking_length (n : ℕ) (next : Except SyncError (Option UInt64) × List UInt64) :
    (walkStepAsking getBlockByNumber state chainId minBlock n next).2.length ≤
      if n < minBlock then 0 else next.2.length + 1 := by
  unfold walkStepAsking
  split_ifs
  · exact le_rfl
  · cases getBlockByNumber (UInt64.ofNat n) with
    | error source => simp
    | ok rpcBlock =>
      cases state.getHash (UInt64.ofNat n) with
      | none => simp
      | some storedHash =>
        dsimp only
        split_ifs <;> simp

theorem walkBackAsking_fst (n : ℕ) :
    (walkBackAsking getBlockByNumber state chainId minBlock n).1 =
      walkBack getBlockByNumber state chainId minBlock n := by
  induction n with
  | zero => exact walkStepAsking_fst getBlockByNumber state chainId minBlock 0 _
  | succ n ih =>
    unfold walkBackAsking walkBack
    rw [walkStepAsking_fst, ih]

theorem walkBackAsking_length (n : ℕ) :
    (walkBackAsking getBlockByNumber state chainId minBlock n).2.length ≤ n + 1 - minBlock := by
  induction n with
  | zero =>
    have hstep := walkStepAsking_length getBlockByNumber state chainId minBlock 0 (.ok none, [])
    unfold walkBackAsking
    split_ifs at hstep with hmin
    · omega
    · rw [List.length_nil] at hstep
      omega
  | succ n ih =>
    have hstep := walkStepAsking_length getBlockByNumber state chainId minBlock (n + 1)
      (walkBackAsking getBlockByNumber state chainId minBlock n)
    unfold walkBackAsking
    split_ifs at hstep with hmin <;> omega

end Asking

/-- The block that is stored for the height is not the canonical one. -/
def Stale (state : ChainState) (canonical : UInt64 → Hash32) (k : ℕ) : Prop :=
  ∃ hash, state.getHash (UInt64.ofNat k) = some hash ∧ hash ≠ canonical (UInt64.ofNat k)

/-- The heights that the walk back from block `n` may stop at. -/
def Stops (state : ChainState) (canonical : UInt64 → Hash32) (n : ℕ) : Set ℕ :=
  {k | n - ChainState.defaultCapacity ≤ k ∧ k ≤ n - 1 ∧ ¬Stale state canonical k}

section ForkPoints

variable {clients : BlockClients} {d : ReorgDetector} {chainId : UInt64}
  {getBlockByNumber : UInt64 → Except String Block} {state : ChainState}
  {canonical : UInt64 → Hash32} {block : Block}

/-- Asking or not, the search finds the same, and it asks for no more heights than are kept. -/
theorem findForkPointAsking_spec (clients : BlockClients) (d : ReorgDetector) (chainId : UInt64)
    (block : Block) :
    (findForkPointAsking clients d chainId block).1 = findForkPoint clients d chainId block ∧
      (findForkPointAsking clients d chainId block).2.length ≤ ChainState.defaultCapacity := by
  unfold findForkPointAsking
  cases hclient : clients chainId with
  | none =>
    unfold findForkPoint
    rw [hclient]
    exact ⟨rfl, Nat.zero_le _⟩
  | some get =>
    cases hstate : d chainId with
    | none =>
      unfold findForkPoint
      rw [hclient, hstate]
      exact ⟨rfl, Nat.zero_le _⟩
    | some s =>
      rw [findForkPoint_eq hclient hstate]
      have hfst := walkBackAsking_fst get s chainId
        (block.number.toNat - ChainState.defaultCapacity) (block.number.toNat - 1)
      have hlength := walkBackAsking_length get s chainId
        (block.number.toNat - ChainState.defaultCapacity) (block.number.toNat - 1)
      have hdepth : ChainState.defaultCapacity = 128 := rfl
      rw [← hfst]
      dsimp only
      generalize walkBackAsking get s chainId (block.number.toNat - ChainState.defaultCapacity)
        (block.number.toNat - 1) = answer at hlength
      obtain ⟨e | _ | fork, asked⟩ := answer <;> dsimp only at hlength ⊢ <;>
        exact ⟨rfl, by omega⟩

theorem not_replaced_iff_not_stale (hclient : clients chainId = some getBlockByNumber)
    (hstate : d chainId = some state)
    (hcanonical : ∀ k, k < block.number → ∃ b, getBlockByNumber k = .ok b ∧ b.hash = canonical k)
    {k : ℕ} (hk : k < block.number.toNat) :
    d.Replaced ⟨clients, chainId, block⟩ (UInt64.ofNat k) ↔ Stale state canonical k := by
  have hlt : UInt64.ofNat k < block.number := by
    rw [UInt64.lt_iff_toNat_lt, UInt64.toNat_ofNat_of_lt' (hk.trans block.number.toNat_lt)]
    exact hk
  obtain ⟨b, hget, hhash⟩ := hcanonical _ hlt
  unfold Replaced storedHash Delivery.canonicalHash Stale stateOf
  dsimp only
  rw [hclient, hstate, Option.bind_some, hget, Option.getD_some]
  apply exists_congr
  intro hash
  apply and_congr_right'
  show some b.hash ≠ some hash ↔ _
  rw [ne_eq, Option.some_inj, hhash]
  exact ne_comm

/-- What the search finds when the node answers: one above the greatest height it may stop at, and
a deep reorg when there is none. -/
theorem findForkPoint_cases (hclient : clients chainId = some getBlockByNumber)
    (hstate : d chainId = some state) (hpos : block.number ≠ 0)
    (hcanonical : ∀ k, k < block.number → ∃ b, getBlockByNumber k = .ok b ∧ b.hash = canonical k) :
    (∃ (k : ℕ) (f : UInt64), IsGreatest (Stops state canonical block.number.toNat) k ∧
      f.toNat = k + 1 ∧ findForkPoint clients d chainId block = .ok f) ∨
    (Stops state canonical block.number.toNat = ∅ ∧ findForkPoint clients d chainId block =
      .error (.deepReorg chainId (UInt64.ofNat ChainState.defaultCapacity))) := by
  have hn : 0 < block.number.toNat := by
    have hne : block.number.toNat ≠ 0 := fun h => hpos (UInt64.toNat_inj.mp h)
    omega
  have hsize := block.number.toNat_lt
  have hstale {k : ℕ} (hk : k ≤ block.number.toNat - 1) :
      d.Replaced ⟨clients, chainId, block⟩ (UInt64.ofNat k) ↔ Stale state canonical k :=
    not_replaced_iff_not_stale hclient hstate hcanonical (by omega)
  have hof : d.stateOf chainId = state := by
    unfold stateOf
    rw [hstate]
    rfl
  have hlive (k : ℕ) (hk : k ≤ block.number.toNat - 1) :
      (Delivery.canonicalHash ⟨clients, chainId, block⟩ (UInt64.ofNat k)).isSome = true := by
    obtain ⟨b, hget, -⟩ := hcanonical (UInt64.ofNat k) (by
      rw [UInt64.lt_iff_toNat_lt, UInt64.toNat_ofNat_of_lt' (show k < 2 ^ 64 by omega)]
      omega)
    unfold Delivery.canonicalHash
    dsimp only
    rw [hclient, Option.bind_some, hget]
    rfl
  have hwalk := walkBack_cases (x := ⟨clients, chainId, block⟩) (d := d) hclient
    (block.number.toNat - ChainState.defaultCapacity) (block.number.toNat - 1) hlive
  dsimp only at hwalk
  rw [hof] at hwalk
  rw [findForkPoint_eq hclient hstate]
  rcases hwalk with ⟨k, hmin, hk, hstays, hreplaced, hwalk⟩ | ⟨hreplaced, hwalk⟩
  · left
    refine ⟨k, UInt64.ofNat k + 1, ⟨⟨hmin, hk, fun h => hstays ((hstale hk).mpr h)⟩, ?_⟩, ?_, ?_⟩
    · intro j hj
      by_contra hlt
      exact hj.2.2 ((hstale hj.2.1).mp (hreplaced j (by omega) hj.2.1))
    · rw [UInt64.toNat_add, UInt64.toNat_ofNat_of_lt' (show k < 2 ^ 64 by omega)]
      exact Nat.mod_eq_of_lt (show k + 1 < 2 ^ 64 by omega)
    · rw [hwalk]
  · right
    constructor
    · rw [Set.eq_empty_iff_forall_notMem]
      intro k hk
      exact hk.2.2 ((hstale hk.2.1).mp (hreplaced k hk.1 hk.2.1))
    · rw [hwalk]

/-- The search asks the node at most 128 times; it returns `f` exactly when `f - 1` is the greatest
height of the look-back that is not stored or stored with the canonical hash, a deep reorg exactly
when there is none; and a block from `f` to the new one can be counted. -/
theorem findForkPoint_bounded_exact (hclient : clients chainId = some getBlockByNumber)
    (hstate : d chainId = some state) (hpos : block.number ≠ 0)
    (hcanonical : ∀ k, k < block.number → ∃ b, getBlockByNumber k = .ok b ∧ b.hash = canonical k) :
    let n := block.number.toNat
    let result := findForkPoint clients d chainId block
    ((findForkPointAsking clients d chainId block).1 = result ∧
      (findForkPointAsking clients d chainId block).2.length ≤ 128) ∧
    (∀ f : UInt64, result = .ok f ↔ ∃ k, IsGreatest (Stops state canonical n) k ∧ f.toNat = k + 1) ∧
    (result = .error (.deepReorg chainId 128) ↔
      ∀ k, n - 128 ≤ k → k ≤ n - 1 → Stale state canonical k) ∧
    ∀ f : UInt64, result = .ok f → max 1 (n - 127) ≤ f.toNat ∧ f.toNat ≤ n ∧
      (block.number - f + 1).toNat = n - f.toNat + 1 := by
  intro n result
  have hn : 0 < n := by
    have hne : n ≠ 0 := fun h => hpos (UInt64.toNat_inj.mp h)
    omega
  have hempty : Stops state canonical n = ∅ ↔
      ∀ k, n - 128 ≤ k → k ≤ n - 1 → Stale state canonical k := by
    rw [Set.eq_empty_iff_forall_notMem]
    constructor
    · intro h k hmin hk
      by_contra hstale
      exact h k ⟨hmin, hk, hstale⟩
    · intro h k hk
      exact hk.2.2 (h k hk.1 hk.2.1)
  refine ⟨findForkPointAsking_spec clients d chainId block, ?_⟩
  rcases findForkPoint_cases hclient hstate hpos hcanonical with
    ⟨k, f, hgreatest, hf, hresult⟩ | ⟨hnone, hresult⟩
  · have hok (g : UInt64) : result = .ok g ↔ g = f := by
      rw [show result = .ok f from hresult]
      exact ⟨fun h => (Except.ok.inj h).symm, fun h => by rw [h]⟩
    refine ⟨fun g => ?_, ?_, fun g hg => ?_⟩
    · rw [hok g]
      constructor
      · rintro rfl
        exact ⟨k, hgreatest, hf⟩
      · rintro ⟨k', hgreatest', hg⟩
        apply UInt64.toNat_inj.mp
        rw [hg, hf, hgreatest.unique hgreatest']
    · rw [← hempty]
      refine iff_of_false (fun h => ?_) fun h => ?_
      · exact nomatch hresult.symm.trans h
      · exact absurd hgreatest.1 (h ▸ Set.notMem_empty k)
    · obtain rfl := (hok g).mp hg
      have hmin : n - 128 ≤ k := hgreatest.1.1
      have hk : k ≤ n - 1 := hgreatest.1.2.1
      have hle : g ≤ block.number := UInt64.le_iff_toNat_le.mpr (show g.toNat ≤ n by omega)
      have hsize := block.number.toNat_lt
      refine ⟨by omega, by omega, ?_⟩
      rw [UInt64.toNat_add, UInt64.toNat_sub_of_le _ _ hle]
      exact Nat.mod_eq_of_lt (show n - g.toNat + 1 < 2 ^ 64 by omega)
  · refine ⟨fun g => ?_, ?_, fun g hg => ?_⟩
    · refine iff_of_false (fun h => ?_) fun ⟨k, hk, _⟩ => ?_
      · exact nomatch hresult.symm.trans h
      · have hmem := hk.1
        rw [show Stops state canonical n = ∅ from hnone] at hmem
        exact hmem
    · exact iff_of_true hresult (hempty.mp hnone)
    · exact nomatch hresult.symm.trans hg

end ForkPoints

/-- A detector that has stored block 2 of chain 1. -/
def storedTwo : ReorgDetector := new.seedBlock 1 2 (repeated 2)

/-- Block 3 comes with another parent, and the node confirms the stored block 2. -/
theorem findForkPoint_bounded_exact_three :
    findForkPoint (fun _ => some fun n => .ok (makeBlock n n.toUInt8 0)) storedTwo 1
        (makeBlock 3 3 9) = .ok 3 ↔
      ∃ k, IsGreatest (Stops (storedTwo.stateOf 1) (fun n => repeated n.toUInt8) 3) k ∧
        (3 : UInt64).toNat = k + 1 := by
  have hstate : storedTwo 1 = some (storedTwo.stateOf 1) := rfl
  have hcanonical (k : UInt64) (_ : k < (makeBlock 3 3 9).number) :
      ∃ b, (Except.ok (makeBlock k k.toUInt8 0) : Except String Block) = .ok b ∧
        b.hash = repeated k.toUInt8 := ⟨_, rfl, rfl⟩
  exact (findForkPoint_bounded_exact rfl hstate (by decide) hcanonical).2.1 3

end ReorgDetector

structure FinalityTracker where
  confirmedDepth : UInt64

namespace FinalityTracker

def default : FinalityTracker := ⟨32⟩

/-- `FinalityTracker::is_finalized`, as it is computed without overflow checks: the sum wraps around
at the end of the numbers, and the test has an answer there too. -/
def isFinalized (t : FinalityTracker) (blockNumber currentBlock : UInt64) : Bool :=
  decide (blockNumber + t.confirmedDepth ≤ currentBlock)

theorem isFinalized_default_iff {k t : UInt64} :
    default.isFinalized k t = true ↔ (k.toNat + 32) % 2 ^ 64 ≤ t.toNat := by
  unfold isFinalized
  rw [decide_eq_true_eq, UInt64.le_iff_toNat_le, UInt64.toNat_add]
  rfl

/-- No block from `f` to the tip is final exactly when `f` lies above the tip, or less than 32 blocks
below it and the tip not at the end of the numbers, where the sum wraps around. -/
theorem none_final_iff {f t : UInt64} :
    (∀ k, f ≤ k → k ≤ t → default.isFinalized k t = false) ↔
      t < f ∨ (t.toNat < f.toNat + 32 ∧ t.toNat + 32 < 2 ^ 64) := by
  have hsize := t.toNat_lt
  simp only [← Bool.not_eq_true, isFinalized_default_iff, UInt64.le_iff_toNat_le,
    UInt64.lt_iff_toNat_lt]
  constructor
  · intro h
    by_cases hft : t.toNat < f.toNat
    · exact .inl hft
    · have hfork := h f (Nat.le_refl _) (by omega)
      have htip := h t (by omega) (Nat.le_refl _)
      omega
  · intro h k hfk hkt
    omega

end FinalityTracker

namespace ReorgDetector

/-- A walk that stops has passed only blocks that have been replaced, whatever the node says below
them. -/
theorem walkBack_some {d : ReorgDetector} {x : Delivery}
    {getBlockByNumber : UInt64 → Except String Block}
    (hclient : x.clients x.chainId = some getBlockByNumber) {minBlock n : ℕ} {fork : UInt64}
    (h : walkBack getBlockByNumber (d.stateOf x.chainId) x.chainId minBlock n = .ok (some fork)) :
    ∃ k, minBlock ≤ k ∧ k ≤ n ∧ ¬d.Replaced x (UInt64.ofNat k) ∧
      (∀ j, k < j → j ≤ n → d.Replaced x (UInt64.ofNat j)) ∧ fork = UInt64.ofNat k + 1 := by
  have hstep {m : ℕ} {next : Except SyncError (Option UInt64)}
      (hm : walkStep getBlockByNumber (d.stateOf x.chainId) x.chainId minBlock m next =
        .ok (some fork)) :
      minBlock ≤ m ∧ ((¬d.Replaced x (UInt64.ofNat m) ∧ fork = UInt64.ofNat m + 1) ∨
        (d.Replaced x (UInt64.ofNat m) ∧ next = .ok (some fork))) := by
    have hmin : minBlock ≤ m := by
      by_contra hlt
      unfold walkStep at hm
      rw [if_pos (by omega)] at hm
      cases hm
    have hanswer : (x.canonicalHash (UInt64.ofNat m)).isSome = true := by
      unfold Delivery.canonicalHash
      rw [hclient, Option.bind_some]
      unfold walkStep at hm
      rw [if_neg (by omega)] at hm
      cases hget : getBlockByNumber (UInt64.ofNat m) with
      | error e =>
        rw [hget] at hm
        cases hm
      | ok b => rfl
    refine ⟨hmin, ?_⟩
    rcases walkStep_eq hclient hmin hanswer (d := d) next with ⟨hreplaced, heq⟩ | ⟨hstays, heq⟩
    · exact .inr ⟨hreplaced, heq.symm.trans hm⟩
    · exact .inl ⟨hstays, (Option.some.inj (Except.ok.inj (heq.symm.trans hm))).symm⟩
  induction n with
  | zero =>
    obtain ⟨hmin, ⟨hstays, hfork⟩ | ⟨-, hnext⟩⟩ := hstep h
    · exact ⟨0, hmin, le_rfl, hstays, fun j hj hj' => absurd hj' (by omega), hfork⟩
    · cases hnext
  | succ n ih =>
    obtain ⟨hmin, ⟨hstays, hfork⟩ | ⟨hreplaced, hnext⟩⟩ := hstep h
    · exact ⟨n + 1, hmin, le_rfl, hstays, fun j hj hj' => absurd hj' (by omega), hfork⟩
    · obtain ⟨k, hk, hkn, hstays, hall, hfork⟩ := ih hnext
      refine ⟨k, hk, by omega, hstays, fun j hj hjn => ?_, hfork⟩
      by_cases hlast : j = n + 1
      · rw [hlast]
        exact hreplaced
      · exact hall j hj (by omega)

/-- A reorg starts above the greatest height of the look-back that has not been replaced. -/
theorem fork_of_reorg {d : ReorgDetector} {x : Delivery} {chainId f newTip : UInt64}
    (h : d.decision x = .ok (.reorg chainId f newTip)) :
    ∃ g, x.InLookback g ∧ ¬d.Replaced x g ∧
      (∀ j, g < j → j < x.block.number → d.Replaced x j) ∧ f.toNat = g.toNat + 1 := by
  have hpasses : (d.stateOf x.chainId).passes x.block = false := by
    rw [← Bool.not_eq_true, ← decision_eq_normal_iff, h]
    exact nofun
  obtain ⟨hempty, hzero, -⟩ := passes_eq_false_iff.mp hpasses
  have hpos : 0 < x.block.number.toNat := by
    have hne : x.block.number.toNat ≠ 0 := fun hc => hzero (UInt64.toNat_inj.mp hc)
    omega
  have hsize := x.block.number.toNat_lt
  have hfork : findForkPoint x.clients d x.chainId x.block = .ok f := by
    unfold decision at h
    rw [processBlock_of_not_passes hpasses] at h
    cases hfind : findForkPoint x.clients d x.chainId x.block with
    | error e =>
      rw [hfind] at h
      cases h
    | ok fork =>
      rw [hfind] at h
      cases h
      rfl
  cases hclient : x.clients x.chainId with
  | none =>
    unfold findForkPoint at hfork
    rw [hclient] at hfork
    cases hfork
  | some get =>
    cases hstate : d x.chainId with
    | none =>
      unfold findForkPoint at hfork
      rw [hclient, hstate] at hfork
      cases hfork
    | some state =>
      have hof : d.stateOf x.chainId = state := by
        unfold stateOf
        rw [hstate]
        rfl
      rw [findForkPoint_eq hclient hstate, ← hof] at hfork
      have hwalk : walkBack get (d.stateOf x.chainId) x.chainId
          (x.block.number.toNat - ChainState.defaultCapacity) (x.block.number.toNat - 1) =
            .ok (some f) := by
        split at hfork
        · next fork hw =>
          cases hfork
          exact hw
        · cases hfork
        · cases hfork
      obtain ⟨k, hmin, hk, hstays, hall, hf⟩ := walkBack_some hclient hwalk
      have hof : (UInt64.ofNat k).toNat = k :=
        UInt64.toNat_ofNat_of_lt' (show k < 2 ^ 64 by omega)
      refine ⟨UInt64.ofNat k, ⟨?_, ?_⟩, hstays, fun j hj hjn => ?_, ?_⟩
      · rw [UInt64.lt_iff_toNat_lt, hof]
        omega
      · rw [hof]
        omega
      · rw [UInt64.lt_iff_toNat_lt] at hj hjn
        rw [hof] at hj
        have hreplaced := hall j.toNat hj (by omega)
        rw [UInt64.ofNat_toNat] at hreplaced
        exact hreplaced
      · rw [hf, UInt64.toNat_add, hof]
        exact Nat.mod_eq_of_lt (show k + 1 < 2 ^ 64 by omega)

/-- A reorg leaves the blocks alone that are final at `t` exactly when some height of the look-back,
from 32 below `t` on, has not been replaced (and `t` is not at the end of the numbers). -/
theorem reorg_above_finality_iff {d : ReorgDetector} {x : Delivery}
    {chainId f newTip : UInt64} (t : UInt64)
    (hreorg : d.decision x = .ok (.reorg chainId f newTip)) :
    (∀ k, f ≤ k → k ≤ t → FinalityTracker.default.isFinalized k t = false) ↔
      ∃ k, x.InLookback k ∧ ¬d.Replaced x k ∧
        (t ≤ k ∨ (t.toNat ≤ k.toNat + 32 ∧ t.toNat + 32 < 2 ^ 64)) := by
  obtain ⟨g, hlookback, hstays, hreplaced, hf⟩ := fork_of_reorg hreorg
  rw [FinalityTracker.none_final_iff]
  simp only [UInt64.lt_iff_toNat_lt, UInt64.le_iff_toNat_le]
  constructor
  · intro h
    refine ⟨g, hlookback, hstays, ?_⟩
    omega
  · rintro ⟨k, hk, hkstays, hdepth⟩
    have hle : k.toNat ≤ g.toNat := by
      by_contra hlt
      exact hkstays (hreplaced k (UInt64.lt_iff_toNat_lt.mpr (by omega)) hk.1)
    omega

/-- A detector after the blocks 1 to 40 of chain 1. -/
def storedForty : ReorgDetector :=
  (List.range 40).foldl
    (fun d i => d.seedBlock 1 (UInt64.ofNat (i + 1)) (repeated (UInt8.ofNat (i + 1)))) new

/-- Block 41 of a chain that agrees with the stored one up to a block. -/
def forkedAfter (n : UInt64) : Delivery :=
  deliveredWith (fun k => if k ≤ n then k.toUInt8 else k.toUInt8 + 100) (makeBlock 41 141 140)

theorem latestBlock_storedForty : (storedForty.stateOf 1).latestBlock = some (40, repeated 40) := by
  decide +kernel

/-- A fork of two blocks. -/
theorem reorg_above_finality_iff_shallow :
    storedForty.decision (forkedAfter 38) = .ok (.reorg 1 39 41) ∧
      ∀ k : UInt64, 39 ≤ k → k ≤ 40 → FinalityTracker.default.isFinalized k 40 = false := by
  have hreorg : storedForty.decision (forkedAfter 38) = .ok (.reorg 1 39 41) := by decide +kernel
  refine ⟨hreorg, ?_⟩
  refine (reorg_above_finality_iff 40 hreorg).mpr ⟨38, ⟨by decide, by decide⟩, ?_,
    .inr (by decide)⟩
  have hcommon : storedForty.Common (forkedAfter 38) 38 :=
    ⟨repeated 38, by decide +kernel, by decide +kernel⟩
  exact not_replaced_iff.mpr (.inr hcommon)

/-- The node has other blocks from 6 on: the reorg of block 41 reaches down to block 6, which is
final at the tip 40. -/
theorem reorg_below_finality :
    ¬∀ (d : ReorgDetector) (x : Delivery) (chainId f newTip t : UInt64) (hash : Hash32),
      (d.stateOf x.chainId).latestBlock = some (t, hash) →
      d.decision x = .ok (.reorg chainId f newTip) →
        ∀ k, f ≤ k → k ≤ t → FinalityTracker.default.isFinalized k t = false := by
  intro h
  have hreorg : storedForty.decision (forkedAfter 5) = .ok (.reorg 1 6 41) := by decide +kernel
  have hfinal := h storedForty (forkedAfter 5) 1 6 41 40 (repeated 40) latestBlock_storedForty
    hreorg 6 (by decide) (by decide)
  revert hfinal
  decide

end ReorgDetector

end ForgeIndex
