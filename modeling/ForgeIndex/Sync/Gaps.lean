import ForgeIndex.Sync.ForkPoint
import ForgeIndex.Sync.Realtime

/-!
# Heads that are not announced

A stream of heads of one chain that is never reorganised, with blocks left out.  The detector takes
every head, and the loop fetches the one block of the head.
-/

namespace ForgeIndex

variable {V : Type}

/-- A chain that is not reorganised, with the events of its blocks. -/
structure CanonicalChain where
  block : UInt64 → Block
  events : UInt64 → List DecodedEvent
  number_block : ∀ k, (block k).number = k
  linked : ∀ k, k ≠ 0 → (block k).parentHash = (block (k - 1)).hash
  blockNumber_events : ∀ k, ∀ e ∈ events k, e.rawLog.blockNumber = k

/-- The heads of the chain with the given numbers. -/
def CanonicalChain.stream (chain : CanonicalChain) (numbers : List UInt64) :
    List (Except SyncError Block) :=
  numbers.map fun n => .ok (chain.block n)

/-- All that is stored for the processor's chain are blocks of the canonical one. -/
def ReorgDetector.StoresOnly (d : ReorgDetector) (chainId : UInt64) (chain : CanonicalChain) :
    Prop :=
  ∀ b ∈ (d.stateOf chainId).recentBlocks, b.2 = (chain.block b.1).hash

namespace ReorgDetector

variable {d : ReorgDetector} {chainId : UInt64} {chain : CanonicalChain}

theorem StoresOnly.passes (h : d.StoresOnly chainId chain) (n : UInt64) :
    (d.stateOf chainId).passes (chain.block n) = true := by
  unfold ChainState.passes
  rw [chain.number_block]
  by_cases hzero : n = 0
  · rw [hzero]
    simp
  · cases hstored : (d.stateOf chainId).getHash (n - 1) with
    | none => simp
    | some hash =>
      have hhash : hash = (chain.block (n - 1)).hash := h _ (mem_of_getHash hstored)
      rw [hhash, ← chain.linked n hzero]
      simp

theorem StoresOnly.accept (h : d.StoresOnly chainId chain) (n : UInt64) :
    StoresOnly (d.accept chainId (chain.block n)).2 chainId chain := by
  intro b hb
  have hb' : b ∈ (stateOf (Function.update d chainId _) chainId).recentBlocks := hb
  rw [stateOf_update, if_pos rfl, ChainState.recentBlocks_push] at hb'
  rcases Window.mem_of_mem_enqueue hb' with hold | hnew
  · exact h b hold
  · rw [hnew]
    show (chain.block n).hash = (chain.block (chain.block n).number).hash
    rw [chain.number_block]

end ReorgDetector

namespace RealtimeProcessor

variable [DecidableEq V] {rp : RealtimeProcessor} {env : Env V} {chain : CanonicalChain}

theorem handleHead_accepts {n : UInt64} {s s' : RealtimeState V}
    (hstored : s.detector.StoresOnly rp.chainId chain)
    (h : rp.handleHead env (.ok (chain.block n)) s = (.ok (), s')) :
    s'.heads = s.heads ++ [(chain.block n, .normal)] ∧
      s'.world.dispatched =
        s.world.dispatched ++ rp.handedAt s.heads.length (chain.block n, .normal) ∧
      s'.detector.StoresOnly rp.chainId chain := by
  obtain ⟨block, s₁, hitem, h⟩ := Proc.bind_ok_iff.mp h
  obtain ⟨s₂, s₃, hget, h⟩ := Proc.bind_ok_iff.mp h
  obtain ⟨decision, s₄, hdecide, h⟩ := Proc.bind_ok_iff.mp h
  cases hitem
  cases hget
  unfold decideHead at hdecide
  rw [ReorgDetector.processBlock_of_passes (hstored.passes n)] at hdecide
  cases hdecide
  obtain ⟨w, hfollow, rfl⟩ := RealtimeState.onWorld_ok h
  exact ⟨rfl, (rp.follow_triple env _ _ _ _).of_ok rfl hfollow, hstored.accept n⟩

theorem run_accepts {numbers : List UInt64} {s s' : RealtimeState V}
    (hstored : s.detector.StoresOnly rp.chainId chain)
    (h : rp.run env (chain.stream numbers) s = (.ok (), s')) :
    s'.heads = s.heads ++ numbers.map fun n => (chain.block n, .normal) := by
  induction numbers generalizing s with
  | nil =>
    cases h
    exact (List.append_nil _).symm
  | cons n numbers ih =>
    obtain ⟨s₁, hhead, hrest⟩ := Proc.forEach_cons_ok_iff.mp h
    obtain ⟨hheads, -, hstored'⟩ := handleHead_accepts hstored hhead
    rw [ih hstored' hrest, hheads, List.append_assoc]
    rfl

/-- An event of the chain has been handed to its handler. -/
def Delivered (s : RealtimeState V) (e : DecodedEvent) : Prop := ∃ i, (i, e) ∈ s.world.dispatched

/-- Between two processed heads every event with a handler has been delivered. -/
def NoHole (rp : RealtimeProcessor) (chain : CanonicalChain) (numbers : List UInt64)
    (s : RealtimeState V) : Prop :=
  ∀ p n, p ∈ numbers → n ∈ numbers → ∀ k, p < k → k ≤ n →
    ∀ e ∈ chain.events k, rp.hasHandler e = true → Delivered s e

/-- The workers answer with events of the chain only; one that fails is left out. -/
def Sound (rp : RealtimeProcessor) (chain : CanonicalChain) : Prop :=
  ∀ i k, ∀ e ∈ rp.fetchBlock i k, e ∈ chain.events k

/-- The workers answer for every head of the stream. -/
def Answers (rp : RealtimeProcessor) (chain : CanonicalChain) (numbers : List UInt64) : Prop :=
  ∀ i k, numbers[i]? = some k → ∀ e ∈ chain.events k, e ∈ rp.fetchBlock i k

/-- A run over heads of a chain that is not reorganised accepts all of them and delivers the events
of exactly the blocks that are announced. -/
theorem run_delivers_announced {numbers : List UInt64} {s₀ s : RealtimeState V}
    (hsound : rp.Sound chain) (hstored : s₀.detector.StoresOnly rp.chainId chain)
    (hheads : s₀.heads = []) (hdispatched : s₀.world.dispatched = [])
    (hrun : rp.run env (chain.stream numbers) s₀ = (.ok (), s)) :
    s.heads = numbers.map (fun n => (chain.block n, .normal)) ∧
      (∀ k, ∀ e ∈ chain.events k,
        (Delivered s e ↔ ∃ i, numbers[i]? = some k ∧ e ∈ rp.fetchBlock i k)) ∧
      (rp.Answers chain numbers → (rp.NoHole chain numbers s ↔
        ∀ p n, p ∈ numbers → n ∈ numbers → ∀ k, p < k → k ≤ n →
          (∃ e ∈ chain.events k, rp.hasHandler e = true) → k ∈ numbers)) := by
  have hall := run_accepts hstored hrun
  rw [hheads, List.nil_append] at hall
  obtain ⟨heads, hs, hdone⟩ := run_ok hrun
  rw [hheads, List.nil_append] at hs
  rw [hheads, hdispatched, List.nil_append, ← hs, hall] at hdone
  have hdelivered (k : UInt64) (e : DecodedEvent) (he : e ∈ chain.events k) :
      Delivered s e ↔ ∃ i, numbers[i]? = some k ∧ e ∈ rp.fetchBlock i k := by
    unfold Delivered
    rw [hdone]
    constructor
    · rintro ⟨i, hi⟩
      obtain ⟨j, block, hij, hj, hfetch⟩ := mem_handedFrom.mp hi
      rw [List.getElem?_map] at hj
      obtain ⟨n, hn, hblock⟩ := Option.map_eq_some_iff.mp hj
      cases hblock
      rw [chain.number_block] at hfetch
      -- the event says which block it is of
      have hblock : n = k := by
        rw [← chain.blockNumber_events n e (hsound i n e hfetch)]
        exact chain.blockNumber_events k e he
      have hindex : i = j := by
        rw [hij]
        exact Nat.zero_add j
      exact ⟨i, by rw [hindex, hn, hblock], by rw [← hblock]; exact hfetch⟩
    · rintro ⟨i, hi, hfetch⟩
      refine ⟨i, mem_handedFrom.mpr ⟨i, chain.block k, (Nat.zero_add i).symm, ?_, ?_⟩⟩
      · rw [List.getElem?_map, hi]
        rfl
      · rw [chain.number_block]
        exact hfetch
  refine ⟨hall, hdelivered, fun hanswers => ?_⟩
  constructor
  · intro hhole p n hp hn k hpk hkn hcarries
    obtain ⟨e, he, hhandler⟩ := hcarries
    obtain ⟨i, hi, -⟩ := (hdelivered k e he).mp (hhole p n hp hn k hpk hkn e he hhandler)
    exact List.mem_of_getElem? hi
  · intro hcovered p n hp hn k hpk hkn e he hhandler
    obtain ⟨i, hi⟩ := List.getElem?_of_mem (hcovered p n hp hn k hpk hkn ⟨e, he, hhandler⟩)
    exact (hdelivered k e he).mpr ⟨i, hi, hanswers i k hi e he⟩

/-- A chain with one event in every block. -/
def busyChain : CanonicalChain where
  block k := ReorgDetector.makeBlock k k.toUInt8 (k - 1).toUInt8
  events k := [BackfillCoordinator.transferAt "A" k 0]
  number_block _ := rfl
  linked _ _ := rfl
  blockNumber_events k e he := by
    rw [List.mem_singleton.mp he]
    rfl

/-- A processor of this chain. -/
def busyProcessor : RealtimeProcessor :=
  chainProcessor (fun _ k => busyChain.events k) UInt64.toUInt8

/-- Blocks 1, 2 and 3 are announced. -/
theorem run_delivers_announced_consecutive :
    let r := busyProcessor.run (plainEnv ⟨[]⟩) (busyChain.stream [1, 2, 3]) freshState
    busyProcessor.NoHole busyChain [1, 2, 3] r.2 := by
  intro r
  have hfetch (i : ℕ) (k : UInt64) : busyProcessor.fetchBlock i k = busyChain.events k := rfl
  have hsound : busyProcessor.Sound busyChain := fun i k e he => by
    rw [hfetch] at he
    exact he
  have hanswers : busyProcessor.Answers busyChain [1, 2, 3] := fun i k _ e he => by
    rw [hfetch]
    exact he
  have hstored : freshState.detector.StoresOnly busyProcessor.chainId busyChain :=
    fun b hb => absurd hb List.not_mem_nil
  have hok : r.1 = .ok () := by decide +kernel
  obtain ⟨-, -, hiff⟩ := run_delivers_announced hsound hstored rfl rfl (Proc.eq_ok_of_fst hok)
  refine (hiff hanswers).mpr fun p n hp hn k hpk hkn _ => ?_
  have hlow : 1 ≤ p.toNat := by
    have hp' : p = 1 ∨ p = 2 ∨ p = 3 := by simpa using hp
    rcases hp' with rfl | rfl | rfl <;> decide
  have hhigh : n.toNat ≤ 3 := by
    have hn' : n = 1 ∨ n = 2 ∨ n = 3 := by simpa using hn
    rcases hn' with rfl | rfl | rfl <;> decide
  rw [UInt64.lt_iff_toNat_lt] at hpk
  rw [UInt64.le_iff_toNat_le] at hkn
  have hk : k.toNat = 2 ∨ k.toNat = 3 := by omega
  rcases hk with hk | hk
  · have hk2 : k = 2 := UInt64.toNat_inj.mp hk
    simp [hk2]
  · have hk3 : k = 3 := UInt64.toNat_inj.mp hk
    simp [hk3]

/-- Heads 1 and 3 are processed, and the event of block 2 is never delivered. -/
theorem run_not_noHole :
    let r := busyProcessor.run (plainEnv ⟨[]⟩) (busyChain.stream [1, 3]) freshState
    r.1 = .ok () ∧ (r.2.world.dispatched.map fun d => d.2.rawLog.blockNumber) = [1, 3] ∧
      ¬busyProcessor.NoHole busyChain [1, 3] r.2 := by
  intro r
  have hnumbers : (r.2.world.dispatched.map fun d => d.2.rawLog.blockNumber) = [1, 3] := by
    decide +kernel
  refine ⟨by decide +kernel, hnumbers, fun h => ?_⟩
  obtain ⟨i, hi⟩ := h 1 3 (by simp) (by simp) 2 (by decide) (by decide)
    (BackfillCoordinator.transferAt "A" 2 0) (List.mem_singleton_self _) rfl
  have hmem := List.mem_map_of_mem (f := fun d : ℕ × DecodedEvent => d.2.rawLog.blockNumber) hi
  rw [hnumbers] at hmem
  have hmem' : (2 : UInt64) ∈ [1, 3] := hmem
  exact absurd hmem' (by decide)

end RealtimeProcessor

end ForgeIndex
