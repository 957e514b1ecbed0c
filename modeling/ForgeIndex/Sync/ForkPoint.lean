import ForgeIndex.Sync.History

/-!
# Fork points

The walk of the detector from the parent of a block down to the fork point, against what the node
answers at the time.
-/

namespace ForgeIndex

namespace ReorgDetector

/-- The hash that is stored for a height of the delivery's chain. -/
def storedHash (d : ReorgDetector) (x : Delivery) (k : UInt64) : Option Hash32 :=
  (d.stateOf x.chainId).getHash k

namespace Delivery

/-- The hash that the node gives for a height; `none` when it does not answer. -/
def canonicalHash (x : Delivery) (k : UInt64) : Option Hash32 :=
  (x.clients x.chainId).bind fun getBlockByNumber =>
    (getBlockByNumber k).toOption.map Block.hash

/-- The node answers for every height below the block. -/
def Live (x : Delivery) : Prop := ∀ k, k < x.block.number → (x.canonicalHash k).isSome = true

/-- The height is one of those that the walk back may reach. -/
def InLookback (x : Delivery) (k : UInt64) : Prop :=
  k < x.block.number ∧ x.block.number.toNat ≤ k.toNat + ChainState.defaultCapacity

end Delivery

/-- The stored block of the height is the canonical one. -/
def Common (d : ReorgDetector) (x : Delivery) (k : UInt64) : Prop :=
  ∃ hash, d.storedHash x k = some hash ∧ x.canonicalHash k = some hash

/-- The stored block of the height is not the canonical one. -/
def Replaced (d : ReorgDetector) (x : Delivery) (k : UInt64) : Prop :=
  ∃ hash, d.storedHash x k = some hash ∧ x.canonicalHash k ≠ some hash

/-- The walk back goes on over a block that has been replaced and stops at any other. -/
theorem walkStep_eq {d : ReorgDetector} {x : Delivery}
    {getBlockByNumber : UInt64 → Except String Block} {minBlock n : ℕ}
    (hclient : x.clients x.chainId = some getBlockByNumber) (hmin : minBlock ≤ n)
    (hlive : (x.canonicalHash (UInt64.ofNat n)).isSome = true)
    (next : Except SyncError (Option UInt64)) :
    (d.Replaced x (UInt64.ofNat n) ∧
      walkStep getBlockByNumber (d.stateOf x.chainId) x.chainId minBlock n next = next) ∨
    (¬d.Replaced x (UInt64.ofNat n) ∧
      walkStep getBlockByNumber (d.stateOf x.chainId) x.chainId minBlock n next =
        .ok (some (UInt64.ofNat n + 1))) := by
  unfold Delivery.canonicalHash at hlive
  rw [hclient] at hlive
  unfold Replaced storedHash Delivery.canonicalHash walkStep
  rw [if_neg (by omega), hclient]
  cases hget : getBlockByNumber (UInt64.ofNat n) with
  | error e =>
    rw [Option.bind_some, hget] at hlive
    exact absurd hlive (by simp [Except.toOption])
  | ok rpcBlock =>
    cases hstored : (d.stateOf x.chainId).getHash (UInt64.ofNat n) with
    | none => exact .inr ⟨by simp, rfl⟩
    | some hash =>
      by_cases heq : hash = rpcBlock.hash
      · right
        refine ⟨?_, if_pos heq⟩
        simp [hget, Except.toOption, heq]
      · left
        refine ⟨⟨hash, rfl, ?_⟩, if_neg heq⟩
        intro h
        simp only [Option.bind_some, hget, Except.toOption, Option.map_some, Option.some.injEq] at h
        exact heq h.symm

/-- The walk from a height either stops at the first block that has not been replaced, or finds
all of them replaced. -/
theorem walkBack_cases {d : ReorgDetector} {x : Delivery}
    {getBlockByNumber : UInt64 → Except String Block}
    (hclient : x.clients x.chainId = some getBlockByNumber) (minBlock n : ℕ)
    (hlive : ∀ k, k ≤ n → (x.canonicalHash (UInt64.ofNat k)).isSome = true) :
    (∃ k, minBlock ≤ k ∧ k ≤ n ∧ ¬d.Replaced x (UInt64.ofNat k) ∧
      (∀ j, k < j → j ≤ n → d.Replaced x (UInt64.ofNat j)) ∧
      walkBack getBlockByNumber (d.stateOf x.chainId) x.chainId minBlock n =
        .ok (some (UInt64.ofNat k + 1))) ∨
    ((∀ j, minBlock ≤ j → j ≤ n → d.Replaced x (UInt64.ofNat j)) ∧
      walkBack getBlockByNumber (d.stateOf x.chainId) x.chainId minBlock n = .ok none) := by
  have hbelow (n : ℕ) (hn : n < minBlock) (next : Except SyncError (Option UInt64)) :
      walkStep getBlockByNumber (d.stateOf x.chainId) x.chainId minBlock n next = .ok none := by
    unfold walkStep
    rw [if_pos hn]
  induction n with
  | zero =>
    by_cases hmin : minBlock ≤ 0
    · rcases walkStep_eq hclient hmin (hlive 0 le_rfl) (d := d) (.ok none) with
        ⟨hreplaced, hstep⟩ | ⟨hstays, hstep⟩
      · right
        refine ⟨fun j _ hj => ?_, hstep⟩
        rw [Nat.le_zero.mp hj]
        exact hreplaced
      · left
        exact ⟨0, hmin, le_rfl, hstays, fun j hj hj' => absurd hj' (by omega), hstep⟩
    · right
      exact ⟨fun j hj hj' => absurd hj (by omega), hbelow 0 (by omega) _⟩
  | succ n ih =>
    by_cases hmin : minBlock ≤ n + 1
    · rcases walkStep_eq hclient hmin (hlive (n + 1) le_rfl) (d := d)
          (walkBack getBlockByNumber (d.stateOf x.chainId) x.chainId minBlock n) with
        ⟨hreplaced, hstep⟩ | ⟨hstays, hstep⟩
      · rcases ih fun k hk => hlive k (by omega) with ⟨k, hk, hkn, hstays, hall, hwalk⟩ | ⟨hall, hwalk⟩
        · left
          refine ⟨k, hk, by omega, hstays, fun j hj hjn => ?_, hstep.trans hwalk⟩
          by_cases hlast : j = n + 1
          · rw [hlast]
            exact hreplaced
          · exact hall j hj (by omega)
        · right
          refine ⟨fun j hj hjn => ?_, hstep.trans hwalk⟩
          by_cases hlast : j = n + 1
          · rw [hlast]
            exact hreplaced
          · exact hall j hj (by omega)
      · left
        exact ⟨n + 1, hmin, le_rfl, hstays, fun j hj hj' => absurd hj' (by omega), hstep⟩
    · right
      exact ⟨fun j hj hj' => absurd hj (by omega), hbelow (n + 1) (by omega) _⟩

theorem passes_eq_false_iff {s : ChainState} {block : Block} :
    s.passes block = false ↔ s.isEmpty = false ∧ block.number ≠ 0 ∧
      ∃ hash, s.getHash (block.number - 1) = some hash ∧ hash ≠ block.parentHash := by
  unfold ChainState.passes
  cases s.getHash (block.number - 1) <;> simp [and_assoc]

theorem findForkPoint_eq {clients : BlockClients} {d : ReorgDetector} {chainId : UInt64}
    {getBlockByNumber : UInt64 → Except String Block} {state : ChainState}
    (hclient : clients chainId = some getBlockByNumber) (hstate : d chainId = some state)
    (block : Block) :
    findForkPoint clients d chainId block =
      match walkBack getBlockByNumber state chainId
        (block.number.toNat - ChainState.defaultCapacity) (block.number.toNat - 1) with
      | .ok (some fork) => .ok fork
      | .ok none => .error (.deepReorg chainId (UInt64.ofNat ChainState.defaultCapacity))
      | .error e => .error e := by
  unfold findForkPoint
  rw [hclient, hstate]
  dsimp only
  cases walkBack getBlockByNumber state chainId
    (block.number.toNat - ChainState.defaultCapacity) (block.number.toNat - 1) with
  | error e => rfl
  | ok fork => cases fork <;> rfl

/-- What the detector decides on a block that does not pass, with a node that answers. -/
theorem decision_of_not_passes {d : ReorgDetector} {x : Delivery} (hlive : x.Live)
    (hpasses : (d.stateOf x.chainId).passes x.block = false) :
    (∃ k, x.InLookback k ∧ ¬d.Replaced x k ∧
      (∀ j, k < j → j < x.block.number → d.Replaced x j) ∧
      d.processBlock x.clients x.chainId x.block =
        (.ok (.reorg x.chainId (k + 1) x.block.number), Function.update d x.chainId
          (some ((d.stateOf x.chainId).pruneAbove k)))) ∨
    ((∀ k, x.InLookback k → d.Replaced x k) ∧
      d.processBlock x.clients x.chainId x.block =
        (.error (.deepReorg x.chainId (UInt64.ofNat ChainState.defaultCapacity)), d)) := by
  obtain ⟨hempty, hzero, -⟩ := passes_eq_false_iff.mp hpasses
  have hpos : 0 < x.block.number.toNat := by
    have hne : x.block.number.toNat ≠ 0 := fun h => hzero (UInt64.toNat_inj.mp h)
    omega
  have hsize : x.block.number.toNat < 2 ^ 64 := x.block.number.toNat_lt
  have hofNat (k : ℕ) (hk : k < x.block.number.toNat) : (UInt64.ofNat k).toNat = k :=
    UInt64.toNat_ofNat_of_lt' (lt_trans hk hsize)
  obtain ⟨getBlockByNumber, hclient⟩ : ∃ get, x.clients x.chainId = some get := by
    have h := hlive 0 (UInt64.lt_iff_toNat_lt.mpr hpos)
    unfold Delivery.canonicalHash at h
    cases hc : x.clients x.chainId with
    | none =>
      rw [hc] at h
      exact absurd h (by decide)
    | some get => exact ⟨get, rfl⟩
  obtain ⟨state, hstate⟩ : ∃ state, d x.chainId = some state := by
    cases hd : d x.chainId with
    | none =>
      unfold stateOf at hempty
      rw [hd] at hempty
      exact absurd hempty (by decide)
    | some state => exact ⟨state, rfl⟩
  have hof : d.stateOf x.chainId = state := by
    unfold stateOf
    rw [hstate]
    rfl
  rw [processBlock_of_not_passes hpasses, findForkPoint_eq hclient hstate, hof]
  have hwalk := walkBack_cases hclient (x.block.number.toNat - ChainState.defaultCapacity)
    (x.block.number.toNat - 1) (d := d) fun k hk => by
      apply hlive
      rw [UInt64.lt_iff_toNat_lt, hofNat k (by omega)]
      omega
  rw [hof] at hwalk
  rcases hwalk with ⟨k, hmin, hk, hstays, hreplaced, hwalk⟩ | ⟨hreplaced, hwalk⟩
  · left
    have hkn := hofNat k (by omega)
    refine ⟨UInt64.ofNat k, ⟨?_, ?_⟩, hstays, ?_, ?_⟩
    · rw [UInt64.lt_iff_toNat_lt, hkn]
      omega
    · rw [hkn]
      omega
    · intro j hj hjn
      rw [UInt64.lt_iff_toNat_lt] at hj hjn
      rw [hkn] at hj
      have h := hreplaced j.toNat hj (by omega)
      rw [UInt64.ofNat_toNat] at h
      exact h
    · rw [hwalk]
      have hsucc : (UInt64.ofNat k + 1).toNat = k + 1 := by
        rw [UInt64.toNat_add, hkn]
        exact Nat.mod_eq_of_lt (by show k + 1 < 2 ^ 64; omega)
      have hne : UInt64.ofNat k + 1 ≠ 0 := fun h => by
        rw [h] at hsucc
        exact absurd hsucc (by simp)
      dsimp only
      rw [if_neg hne, UInt64.add_sub_cancel]
  · right
    refine ⟨fun k hk => ?_, by rw [hwalk]⟩
    have h := hreplaced k.toNat (by have := hk.2; omega) (by
      have := UInt64.lt_iff_toNat_lt.mp hk.1
      omega)
    rw [UInt64.ofNat_toNat] at h
    exact h

/-- The walk goes past the heights that have been replaced and stays at the first one below them. -/
theorem processBlock_of_common {d : ReorgDetector} {x : Delivery} (hlive : x.Live)
    (hpasses : (d.stateOf x.chainId).passes x.block = false) {a : UInt64} (ha : x.InLookback a)
    (hcommon : ¬d.Replaced x a) (hreplaced : ∀ k, a < k → k < x.block.number → d.Replaced x k) :
    d.processBlock x.clients x.chainId x.block =
      (.ok (.reorg x.chainId (a + 1) x.block.number), Function.update d x.chainId
        (some ((d.stateOf x.chainId).pruneAbove a))) := by
  rcases decision_of_not_passes hlive hpasses with ⟨k, hk, hstays, habove, hprocess⟩ | ⟨hno, -⟩
  · have hka : k = a := by
      have hnot : ¬k < a := fun hlt => hcommon (habove a hlt ha.1)
      have hnot' : ¬a < k := fun hlt => hstays (hreplaced k hlt hk.1)
      exact UInt64.le_antisymm (UInt64.not_lt.mp hnot') (UInt64.not_lt.mp hnot)
    rw [hprocess, hka]
  · exact absurd (hno a ha) hcommon

theorem not_replaced_iff {d : ReorgDetector} {x : Delivery} {k : UInt64} :
    ¬d.Replaced x k ↔ d.storedHash x k = none ∨ d.Common x k := by
  unfold Replaced Common
  cases d.storedHash x k <;> simp

/-- The block before a fork point is stored, before and after the call, and it is canonical; a
block that does not pass and has no such ancestor is a deep reorg. -/
structure RestsOnAncestor (d : ReorgDetector) (x : Delivery) : Prop where
  ancestor : ∀ chainId forkBlock newTip,
    d.decision x = .ok (.reorg chainId forkBlock newTip) → 1 ≤ forkBlock →
      d.Common x (forkBlock - 1) ∧ (d.feed x).Common x (forkBlock - 1)
  deep : (d.stateOf x.chainId).passes x.block = false →
    (∀ k, x.InLookback k → ¬d.Common x k) →
      d.decision x = .error (.deepReorg x.chainId (UInt64.ofNat ChainState.defaultCapacity))

/-- Every height of the look-back that is not stored lies below a common ancestor. -/
def Covered (d : ReorgDetector) (x : Delivery) : Prop :=
  (d.stateOf x.chainId).passes x.block = false →
    ∀ k, x.InLookback k → d.storedHash x k = none →
      ∃ a, k < a ∧ a < x.block.number ∧ d.Common x a

section Cases

variable {d : ReorgDetector} {x : Delivery}

theorem rests_covered_of_passes (hpasses : (d.stateOf x.chainId).passes x.block = true) :
    d.RestsOnAncestor x ∧ d.Covered x := by
  have hnormal := decision_eq_normal_iff.mpr hpasses
  refine ⟨⟨?_, ?_⟩, ?_⟩
  · intro chainId f n hf
    rw [hnormal] at hf
    cases hf
  · intro h
    rw [hpasses] at h
    cases h
  · intro h
    rw [hpasses] at h
    cases h

theorem rests_covered_of_deep (hreplaced : ∀ k, x.InLookback k → d.Replaced x k)
    (hdecision : d.decision x =
      .error (.deepReorg x.chainId (UInt64.ofNat ChainState.defaultCapacity))) :
    d.RestsOnAncestor x ∧ d.Covered x := by
  refine ⟨⟨?_, fun _ _ => hdecision⟩, ?_⟩
  · intro chainId f n hf
    rw [hdecision] at hf
    cases hf
  · intro _ k hk hnone
    obtain ⟨hash, hstored, -⟩ := hreplaced k hk
    rw [hnone] at hstored
    cases hstored

theorem rests_covered_of_common {k : UInt64} (hk : x.InLookback k) (hcommon : d.Common x k)
    (hreplaced : ∀ j, k < j → j < x.block.number → d.Replaced x j)
    (hprocess : d.processBlock x.clients x.chainId x.block =
      (.ok (.reorg x.chainId (k + 1) x.block.number), Function.update d x.chainId
        (some ((d.stateOf x.chainId).pruneAbove k)))) :
    d.RestsOnAncestor x ∧ d.Covered x := by
  refine ⟨⟨?_, ?_⟩, ?_⟩
  · intro chainId f n hf _
    unfold decision at hf
    rw [hprocess] at hf
    cases hf
    rw [UInt64.add_sub_cancel]
    refine ⟨hcommon, ?_⟩
    obtain ⟨hash, hstored, hcanonical⟩ := hcommon
    refine ⟨hash, ?_, hcanonical⟩
    unfold storedHash feed
    rw [hprocess]
    show (stateOf (Function.update d x.chainId _) x.chainId).getHash k = _
    rw [stateOf_update, if_pos rfl, ChainState.getHash_pruneAbove _ (UInt64.le_refl k)]
    exact hstored
  · intro _ hno
    exact absurd hcommon (hno k hk)
  · intro _ j hj hnone
    refine ⟨k, ?_, hk.1, hcommon⟩
    have hne : j ≠ k := by
      rintro rfl
      obtain ⟨hash, hstored, -⟩ := hcommon
      rw [hnone] at hstored
      cases hstored
    have hnot : ¬k < j := by
      intro hkj
      obtain ⟨hash, hstored, -⟩ := hreplaced j hkj hj.1
      rw [hnone] at hstored
      cases hstored
    exact UInt64.lt_of_le_of_ne (UInt64.not_lt.mp hnot) hne

theorem not_rests_of_none {k : UInt64} (hk : x.InLookback k) (hnone : d.storedHash x k = none)
    (hdecision : d.decision x = .ok (.reorg x.chainId (k + 1) x.block.number)) :
    ¬d.RestsOnAncestor x := by
  intro h
  have hle : 1 ≤ k + 1 := by
    have hlt := UInt64.lt_iff_toNat_lt.mp hk.1
    have hsize := x.block.number.toNat_lt
    rw [UInt64.le_iff_toNat_le, UInt64.toNat_add]
    show 1 ≤ (k.toNat + 1) % 2 ^ 64
    omega
  obtain ⟨⟨hash, hstored, -⟩, -⟩ := h.ancestor _ _ _ hdecision hle
  rw [UInt64.add_sub_cancel, hnone] at hstored
  cases hstored

end Cases

theorem restsOnAncestor_iff {d : ReorgDetector} {x : Delivery} (hlive : x.Live) :
    d.RestsOnAncestor x ↔ d.Covered x := by
  by_cases hpasses : (d.stateOf x.chainId).passes x.block = true
  · obtain ⟨hrests, hcovered⟩ := rests_covered_of_passes hpasses
    exact iff_of_true hrests hcovered
  rw [Bool.not_eq_true] at hpasses
  rcases decision_of_not_passes hlive hpasses with
    ⟨k, hk, hstays, hreplaced, hprocess⟩ | ⟨hreplaced, hprocess⟩
  · rcases not_replaced_iff.mp hstays with hnone | hcommon
    · have hdecision : d.decision x = .ok (.reorg x.chainId (k + 1) x.block.number) := by
        unfold decision
        rw [hprocess]
      refine iff_of_false (not_rests_of_none hk hnone hdecision) fun h => ?_
      obtain ⟨a, hka, han, ha⟩ := h hpasses k hk hnone
      exact not_replaced_iff.mpr (.inr ha) (hreplaced a hka han)
    · obtain ⟨hrests, hcovered⟩ := rests_covered_of_common hk hcommon hreplaced hprocess
      exact iff_of_true hrests hcovered
  · have hdecision : d.decision x =
        .error (.deepReorg x.chainId (UInt64.ofNat ChainState.defaultCapacity)) := by
      unfold decision
      rw [hprocess]
    obtain ⟨hrests, hcovered⟩ := rests_covered_of_deep hreplaced hdecision
    exact iff_of_true hrests hcovered

namespace Call

/-- `RestsOnAncestor` for the calls that give a block while the node answers. -/
def RestsOnAncestor (d : ReorgDetector) : Call → Prop
  | processBlock x => x.Live → d.RestsOnAncestor x
  | seedBlock _ _ _ => True

/-- `Covered` for the calls that give a block while the node answers. -/
def Covered (d : ReorgDetector) : Call → Prop
  | processBlock x => x.Live → d.Covered x
  | seedBlock _ _ _ => True

end Call

/-- The fork points of a run rest on common ancestors if and only if no walk meets a height that
is not stored before it meets a common ancestor. -/
theorem run_restsOnAncestor_iff (calls : List Call) :
    Along Call.apply Call.RestsOnAncestor new calls ↔ Along Call.apply Call.Covered new calls := by
  apply along_iff_of_invariant (I := fun _ => True)
  · intro d call _
    cases call with
    | seedBlock chainId number hash => exact Iff.rfl
    | processBlock x =>
      constructor
      · intro h hlive
        exact (restsOnAncestor_iff hlive).mp (h hlive)
      · intro h hlive
        exact (restsOnAncestor_iff hlive).mpr (h hlive)
  · intro d call _ _
    trivial
  · trivial

/-- A new detector with clients, given blocks that their chain gives at the time. -/
def deliveredWith (hashes : UInt64 → UInt8) (block : Block) : Delivery :=
  ⟨fun _ => some fun n => .ok (makeBlock n (hashes n) 0), 1, block⟩

/-- Blocks 1 and 3, and block 4 of a chain in which all of them are other blocks. -/
def skipped : List Delivery :=
  [deliveredWith UInt64.toUInt8 (makeBlock 1 1 0), deliveredWith UInt64.toUInt8 (makeBlock 3 3 2),
    deliveredWith (fun n => n.toUInt8 + 10) (makeBlock 4 14 13)]

/-- The walk stops at block 2, which is not stored, and the fork is said to be at block 3; block 1,
which has been replaced as well, stays in the state. -/
theorem run_not_restsOnAncestor :
    ((skipped.take 2).foldl feed new).decision
        (deliveredWith (fun n => n.toUInt8 + 10) (makeBlock 4 14 13)) = .ok (.reorg 1 3 4) ∧
      (stateOf (skipped.foldl feed new) 1).recentBlocks = [(1, repeated 1)] ∧
      ¬Along Call.apply Call.RestsOnAncestor new (skipped.map Call.processBlock) := by
  refine ⟨by decide, by decide, ?_⟩
  rintro ⟨-, -, h, -⟩
  have hlive : (deliveredWith (fun n => n.toUInt8 + 10) (makeBlock 4 14 13)).Live :=
    fun _ _ => rfl
  obtain ⟨⟨hash, hstored, -⟩, -⟩ := (h hlive).ancestor 1 3 4 (by decide) (by decide)
  have hnone : storedHash ((skipped.take 2).foldl feed new)
      (deliveredWith (fun n => n.toUInt8 + 10) (makeBlock 4 14 13)) 2 = none := by decide
  exact absurd (hnone.symm.trans hstored) (by simp)

/-- The block is the next one after another, by number and by hash. -/
def Next (a b : Block) : Prop := b.number.toNat = a.number.toNat + 1 ∧ b.parentHash = a.hash

/-- What is stored of a delivered block. -/
def Delivery.entry (x : Delivery) : UInt64 × Hash32 := (x.block.number, x.block.hash)

theorem getHash_of_mem {s : ChainState} (h : s.Ascending) {b : UInt64 × Hash32}
    (hb : b ∈ s.recentBlocks) : s.getHash b.1 = some b.2 := by
  have hkeys : s.recentBlocks.Pairwise fun a b => a.1 ≠ b.1 := by
    apply h.imp
    intro a b hab heq
    rw [heq] at hab
    exact UInt64.lt_irrefl _ hab
  unfold ChainState.getHash
  rw [Window.find?_of_pairwise hkeys hb]
  rfl

theorem mem_of_getHash {s : ChainState} {k : UInt64} {hash : Hash32}
    (h : s.getHash k = some hash) : (k, hash) ∈ s.recentBlocks := by
  obtain ⟨b, hb, hhash⟩ := Option.map_eq_some_iff.mp h
  have hk : b.1 = k := of_decide_eq_true
    (List.find?_some (p := fun b : UInt64 × Hash32 => decide (b.1 = k)) hb)
  rw [← hk, ← hhash]
  exact List.mem_of_find?_eq_some hb

theorem passes_of_next {s : ChainState} {p block : Block} (h : s.Ascending)
    (htop : s.latestBlock = some (p.number, p.hash)) (hnext : Next p block) :
    s.passes block = true := by
  have hstored : s.getHash p.number = some p.hash :=
    getHash_of_mem h (List.mem_of_getLast? htop)
  have hparent : block.number - 1 = p.number := by
    apply UInt64.toNat_inj.mp
    have hnumber := hnext.1
    have hone : (1 : UInt64) ≤ block.number := by
      rw [UInt64.le_iff_toNat_le]
      show 1 ≤ block.number.toNat
      omega
    rw [UInt64.toNat_sub_of_le _ _ hone]
    show block.number.toNat - 1 = p.number.toNat
    omega
  unfold ChainState.passes
  rw [hparent, hstored, hnext.2]
  simp

theorem feed_linked {chainId : UInt64} {ds : List Delivery} {d : ReorgDetector} {p : Block}
    (hd : d.StoredInOrder fun a b => a.1 < b.1)
    (htop : (d.stateOf chainId).latestBlock = some (p.number, p.hash))
    (hchain : ∀ x ∈ ds, x.chainId = chainId)
    (hlinked : (p :: ds.map Delivery.block).IsChain Next) :
    Along feed (fun d x => d.decision x = .ok .normal) d ds ∧
      (stateOf (ds.foldl feed d) chainId).recentBlocks = (ds.map Delivery.entry).foldl
        (Window.enqueue ChainState.defaultCapacity) (d.stateOf chainId).recentBlocks ∧
      StoredInOrder (fun a b => a.1 < b.1) (ds.foldl feed d) := by
  induction ds generalizing d p with
  | nil => exact ⟨trivial, rfl, hd⟩
  | cons x ds ih =>
    have hx : x.chainId = chainId := hchain x List.mem_cons_self
    have hnext : Next p x.block := hlinked.rel
    have hpasses : (d.stateOf x.chainId).passes x.block = true := by
      rw [hx]
      exact passes_of_next (hd chainId).2 htop hnext
    have hpush : stateOf (d.feed x) chainId = (d.stateOf chainId).push x.block.number x.block.hash := by
      rcases stateOf_apply d (.processBlock x) chainId with ⟨-, -, h⟩ | ⟨h, -⟩
      · exact h
      · exact absurd ⟨hx.symm, hpasses⟩ h
    have hd' : StoredInOrder (fun a b => a.1 < b.1) (d.feed x) := by
      apply (storedInOrder_apply_iff hd (.processBlock x)).mpr
      intro _ top htop'
      have htop'' : (d.stateOf x.chainId).latestBlock = some top := htop'
      rw [hx, htop] at htop''
      cases htop''
      show p.number < x.block.number
      rw [UInt64.lt_iff_toNat_lt]
      have := hnext.1
      omega
    have htop' : (stateOf (d.feed x) chainId).latestBlock = some (x.block.number, x.block.hash) := by
      rw [hpush, ChainState.latestBlock, ChainState.recentBlocks_push, Window.enqueue,
        List.getLast?_concat]
    obtain ⟨hall, hstored, hin⟩ := ih hd' htop'
      (fun y hy => hchain y (List.mem_cons_of_mem x hy)) hlinked.tail
    refine ⟨⟨decision_eq_normal_iff.mpr hpasses, hall⟩, ?_, hin⟩
    show (stateOf (ds.foldl feed (d.feed x)) chainId).recentBlocks = _
    rw [hstored, hpush, ChainState.recentBlocks_push, (hd chainId).1]
    rfl

theorem window_of_linked {chainId : UInt64} {ds : List Delivery} (hne : ds ≠ [])
    (hchain : ∀ x ∈ ds, x.chainId = chainId) (hlinked : (ds.map Delivery.block).IsChain Next) :
    Along feed (fun d x => d.decision x = .ok .normal) new ds ∧
      (stateOf (ds.foldl feed new) chainId).recentBlocks =
        (ds.map Delivery.entry).rtake ChainState.defaultCapacity ∧
      (stateOf (ds.foldl feed new) chainId).Ascending := by
  cases ds with
  | nil => exact absurd rfl hne
  | cons x ds =>
    have hx : x.chainId = chainId := hchain x List.mem_cons_self
    have hpasses : (new.stateOf x.chainId).passes x.block = true := rfl
    have hfirst : stateOf (new.feed x) chainId =
        (ChainState.new ChainState.defaultCapacity).push x.block.number x.block.hash := by
      rcases stateOf_apply new (.processBlock x) chainId with ⟨-, -, h⟩ | ⟨h, -⟩
      · exact h
      · exact absurd ⟨hx.symm, hpasses⟩ h
    have hin : StoredInOrder (fun a b => a.1 < b.1) (new.feed x) := by
      apply (storedInOrder_apply_iff (storedInOrder_new _) (.processBlock x)).mpr
      intro _ top htop
      cases htop
    obtain ⟨hall, hstored, hin⟩ := feed_linked (p := x.block) hin (by rw [hfirst]; rfl)
      (fun y hy => hchain y (List.mem_cons_of_mem x hy)) hlinked
    refine ⟨⟨decision_eq_normal_iff.mpr hpasses, hall⟩, ?_, (hin chainId).2⟩
    show (stateOf (ds.foldl feed (new.feed x)) chainId).recentBlocks = _
    rw [hstored, hfirst]
    show (ds.map Delivery.entry).foldl _ [x.entry] = _
    have hone : [x.entry].length ≤ ChainState.defaultCapacity := by
      show 1 ≤ 128
      omega
    rw [Window.foldl_enqueue (by decide) _ hone]
    rfl

theorem heights_of_linked {ds : List Delivery} (hlinked : (ds.map Delivery.block).IsChain Next)
    (n : ℕ) : ∃ lo, (((ds.map Delivery.entry).rtake n).map fun b => b.1.toNat) =
      List.range' lo ((ds.map Delivery.entry).rtake n).length := by
  have hall : ((ds.map Delivery.entry).map fun b => b.1.toNat).IsChain fun a b => b = a + 1 := by
    rw [List.map_map, List.isChain_map]
    rw [List.isChain_map] at hlinked
    apply hlinked.imp
    intro x y hxy
    exact hxy.1
  have hpart : (((ds.map Delivery.entry).rtake n).map fun b => b.1.toNat).IsChain
      fun a b => b = a + 1 := by
    unfold List.rtake
    rw [List.map_drop]
    exact hall.drop _
  obtain ⟨lo, hlo⟩ := Window.eq_range'_of_isChain hpart
  rw [List.length_map] at hlo
  exact ⟨lo, hlo⟩

theorem exists_storedHash_between {d : ReorgDetector} {x : Delivery} {lo n : ℕ}
    (hheights : ((d.stateOf x.chainId).recentBlocks.map fun b => b.1.toNat) = List.range' lo n)
    (hup : (d.stateOf x.chainId).Ascending) {a b k : UInt64} {first last : Hash32}
    (ha : d.storedHash x a = some first) (hb : d.storedHash x b = some last)
    (hak : a.toNat ≤ k.toNat) (hkb : k.toNat ≤ b.toNat) :
    (∃ hash, d.storedHash x k = some hash) ∧ b.toNat < a.toNat + n := by
  have hrange {j : UInt64} {hash : Hash32} (h : d.storedHash x j = some hash) :
      lo ≤ j.toNat ∧ j.toNat < lo + n := by
    have hmem := List.mem_map_of_mem (f := fun b : UInt64 × Hash32 => b.1.toNat)
      (mem_of_getHash h)
    rw [hheights] at hmem
    exact List.mem_range'_1.mp hmem
  have hlow := hrange ha
  have hhigh := hrange hb
  refine ⟨?_, by omega⟩
  have hk : k.toNat ∈ (d.stateOf x.chainId).recentBlocks.map fun b => b.1.toNat := by
    rw [hheights]
    exact List.mem_range'_1.mpr ⟨by omega, by omega⟩
  obtain ⟨entry, hentry, heq⟩ := List.mem_map.mp hk
  refine ⟨entry.2, ?_⟩
  unfold storedHash
  rw [← UInt64.toNat_inj.mp heq]
  exact getHash_of_mem hup hentry

/-- A linked run of blocks is accepted, and the last ones of it are stored; a block whose parent is
another one than the stored one is then a reorg from the first height at which the node's blocks
and the stored ones part. -/
theorem linked_run_detects {chainId : UInt64} {ds : List Delivery} (hne : ds ≠ [])
    (hchain : ∀ x ∈ ds, x.chainId = chainId) (hlinked : (ds.map Delivery.block).IsChain Next) :
    Along feed (fun d x => d.decision x = .ok .normal) new ds ∧
      (stateOf (ds.foldl feed new) chainId).recentBlocks =
        (ds.map Delivery.entry).rtake ChainState.defaultCapacity ∧
      (stateOf (ds.foldl feed new) chainId).Ascending ∧
      ∀ (x : Delivery) (parent : Hash32) (a : UInt64) (ancestor : Hash32),
        x.chainId = chainId → x.Live →
        storedHash (ds.foldl feed new) x (x.block.number - 1) = some parent →
        parent ≠ x.block.parentHash →
        storedHash (ds.foldl feed new) x a = some ancestor →
        a.toNat + 2 ≤ x.block.number.toNat →
        (∀ k hash, k ≤ a → storedHash (ds.foldl feed new) x k = some hash →
          x.canonicalHash k = some hash) →
        (∀ k, a < k → k < x.block.number →
          x.canonicalHash k ≠ storedHash (ds.foldl feed new) x k) →
        decision (ds.foldl feed new) x = .ok (.reorg chainId (a + 1) x.block.number) ∧
          (stateOf (feed (ds.foldl feed new) x) chainId).recentBlocks =
            (stateOf (ds.foldl feed new) chainId).recentBlocks.filter fun b => b.1 ≤ a := by
  obtain ⟨hall, hwindow, hup⟩ := window_of_linked hne hchain hlinked
  refine ⟨hall, hwindow, hup, ?_⟩
  generalize hd : ds.foldl feed new = d at *
  intro x parent a ancestor hx hlive hparent hother ha ha2 hagree hdiffer
  subst hx
  have hnumber : (x.block.number - 1).toNat = x.block.number.toNat - 1 := by
    apply UInt64.toNat_sub_of_le
    rw [UInt64.le_iff_toNat_le]
    show 1 ≤ x.block.number.toNat
    omega
  -- the heights from `a` to the parent are stored, and there are less than the capacity of them
  obtain ⟨lo, hlo⟩ := heights_of_linked hlinked ChainState.defaultCapacity
  rw [← hwindow] at hlo
  have hlen : (d.stateOf x.chainId).recentBlocks.length ≤ 128 := by
    rw [hwindow]
    exact Window.length_rtake_le _ _
  have hreplaced (k : UInt64) (hak : a < k) (hkn : k < x.block.number) : d.Replaced x k := by
    have hdiff := hdiffer k hak hkn
    rw [UInt64.lt_iff_toNat_lt] at hak hkn
    obtain ⟨⟨hash, hk⟩, -⟩ := @exists_storedHash_between d x _ _ hlo hup _ _ k _ _ ha hparent
      (by omega) (by omega)
    refine ⟨hash, hk, ?_⟩
    rw [← hk]
    exact hdiff
  have hcommon : ¬d.Replaced x a :=
    not_replaced_iff.mpr (.inr ⟨ancestor, ha, hagree a ancestor (UInt64.le_refl a) ha⟩)
  have hlookback : x.InLookback a := by
    have hnear := (@exists_storedHash_between d x _ _ hlo hup _ _ a _ _ ha hparent
      (by omega) (by omega)).2
    refine ⟨?_, ?_⟩
    · rw [UInt64.lt_iff_toNat_lt]
      omega
    · show x.block.number.toNat ≤ a.toNat + 128
      omega
  have hpasses : (d.stateOf x.chainId).passes x.block = false := by
    rw [passes_eq_false_iff]
    refine ⟨?_, ?_, parent, hparent, hother⟩
    · unfold ChainState.isEmpty
      rw [List.isEmpty_eq_false_iff]
      exact List.ne_nil_of_mem (mem_of_getHash ha)
    · intro hzero
      rw [hzero] at ha2
      exact absurd ha2 (by simp)
  have hprocess := processBlock_of_common hlive hpasses hlookback hcommon hreplaced
  unfold decision feed
  rw [hprocess]
  refine ⟨rfl, ?_⟩
  show (stateOf (Function.update d x.chainId _) x.chainId).recentBlocks = _
  rw [stateOf_update, if_pos rfl]
  exact ChainState.recentBlocks_pruneAbove hup a

/-- Blocks 1, 2 and 3, and then block 4 of a chain that parts from them after block 1. -/
theorem linked_run_detects_fork :
    let ds := [makeBlock 1 1 0, makeBlock 2 2 1, makeBlock 3 3 2].map delivered
    let x := deliveredWith (fun n => if n = 1 then 1 else n.toUInt8 + 10) (makeBlock 4 14 13)
    decision (ds.foldl feed new) x = .ok (.reorg 1 2 4) ∧
      (stateOf (feed (ds.foldl feed new) x) 1).recentBlocks = [(1, repeated 1)] := by
  intro ds x
  have hchain : ∀ y ∈ ds, y.chainId = 1 := by decide
  have hlinked : (ds.map Delivery.block).IsChain Next := by
    have h : Next (makeBlock 1 1 0) (makeBlock 2 2 1) ∧ Next (makeBlock 2 2 1) (makeBlock 3 3 2) :=
      ⟨⟨by decide, rfl⟩, by decide, rfl⟩
    exact .cons_cons h.1 (.cons_cons h.2 (.singleton _))
  obtain ⟨-, -, -, hfork⟩ := linked_run_detects (show ds ≠ [] by simp [ds])
    hchain hlinked
  have hstored : (stateOf (ds.foldl feed new) 1).recentBlocks =
      [(1, repeated 1), (2, repeated 2), (3, repeated 3)] := by decide
  have hone : ∀ k : UInt64, k ≤ 1 → k = 0 ∨ k = 1 := by
    intro k hk
    rw [UInt64.le_iff_toNat_le] at hk
    have hk' : k.toNat ≤ 1 := hk
    have hcases : k.toNat = 0 ∨ k.toNat = 1 := by omega
    exact hcases.imp (fun h => UInt64.toNat_inj.mp h) fun h => UInt64.toNat_inj.mp h
  have hbetween : ∀ k : UInt64, 1 < k → k < 4 → k = 2 ∨ k = 3 := by
    intro k hk hk'
    rw [UInt64.lt_iff_toNat_lt] at hk hk'
    have hk₁ : 1 < k.toNat := hk
    have hk₂ : k.toNat < 4 := hk'
    have hcases : k.toNat = 2 ∨ k.toNat = 3 := by omega
    exact hcases.imp (fun h => UInt64.toNat_inj.mp h) fun h => UInt64.toNat_inj.mp h
  have hbelow : ∀ k hash, k ≤ 1 → storedHash (ds.foldl feed new) x k = some hash →
      x.canonicalHash k = some hash := by
    intro k hash hk h
    rcases hone k hk with rfl | rfl
    · have hnone : storedHash (ds.foldl feed new) x 0 = none := by decide
      rw [hnone] at h
      cases h
    · have hfirst : storedHash (ds.foldl feed new) x 1 = some (repeated 1) := by decide
      rw [hfirst] at h
      exact h
  have habove : ∀ k, 1 < k → k < x.block.number →
      x.canonicalHash k ≠ storedHash (ds.foldl feed new) x k := by
    intro k hk hk'
    rcases hbetween k hk hk' with rfl | rfl <;> decide
  have hdone := hfork x (repeated 3) 1 (repeated 1) rfl (fun _ _ => rfl) (by decide) (by decide)
    (by decide) (by decide) hbelow habove
  rw [hstored] at hdone
  exact hdone

end ReorgDetector

end ForgeIndex
