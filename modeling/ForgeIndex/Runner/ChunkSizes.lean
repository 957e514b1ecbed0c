import ForgeIndex.Backfill.Coordinator
import ForgeIndex.Backfill.Partition
import ForgeIndex.Config.Validation
import ForgeIndex.Lib.Filling

/-!
# The chunk sizes of the chains

`chain_chunk_sizes` of `forge-index/src/runner.rs`, and what an accepted configuration means for
the planner's loop.
-/

namespace ForgeIndex

/-- `chain_chunk_sizes`: the chains that have a block range, by their ids. -/
def Config.chainChunkSizes (config : Config) (chainId : UInt64) : Option UInt64 :=
  (Filling.table Prod.fst
    (config.chains.filterMap fun c => c.maxBlockRange.map fun r => (c.chainId, r)) chainId).map
      Prod.snd

/-- The chunk size that the coordinator plans with. -/
def Config.chunkSize (config : Config) (chainId : UInt64) : UInt64 :=
  (config.chainChunkSizes chainId).getD BackfillCoordinator.defaultChunkSize

/-- Chain ids are unique, so that each chain is planned with its own chunk size. -/
theorem Config.chunkSize_of_mem {config : Config}
    (hnodup : (config.chains.map ChainConfig.chainId).Nodup) {chain : ChainConfig}
    (hchain : chain ∈ config.chains) : config.chunkSize chain.chainId =
      chain.maxBlockRange.getD BackfillCoordinator.defaultChunkSize := by
  have hentry {r : UInt64} {chainId : UInt64}
      (h : (chainId, r) ∈ config.chains.filterMap fun c =>
        c.maxBlockRange.map fun r => (c.chainId, r)) :
      ∃ c ∈ config.chains, c.maxBlockRange = some r ∧ c.chainId = chainId := by
    obtain ⟨c, hc, hr⟩ := List.mem_filterMap.mp h
    obtain ⟨r', hr', heq⟩ := Option.map_eq_some_iff.mp hr
    cases heq
    exact ⟨c, hc, hr', rfl⟩
  unfold chunkSize chainChunkSizes
  cases hrange : chain.maxBlockRange with
  | none =>
    cases htable : Filling.table Prod.fst
        (config.chains.filterMap fun c => c.maxBlockRange.map fun r => (c.chainId, r))
        chain.chainId with
    | none => rfl
    | some entry =>
      obtain ⟨hmem, hkey⟩ := Filling.mem_of_table htable
      obtain ⟨c, hc, hr, hid⟩ := hentry hmem
      rw [List.inj_on_of_nodup_map hnodup hc hchain (hid.trans hkey), hrange] at hr
      cases hr
  | some r =>
    have hmem : (chain.chainId, r) ∈ config.chains.filterMap fun c =>
        c.maxBlockRange.map fun r => (c.chainId, r) := by
      refine List.mem_filterMap.mpr ⟨chain, hchain, ?_⟩
      rw [hrange]
      rfl
    obtain ⟨entry, htable⟩ := Filling.exists_of_mem Prod.fst hmem
    obtain ⟨hmem', hkey⟩ := Filling.mem_of_table htable
    obtain ⟨c, hc, hr, hid⟩ := hentry hmem'
    rw [List.inj_on_of_nodup_map hnodup hc hchain (hid.trans hkey), hrange] at hr
    rw [htable]
    exact (Option.some.inj hr).symm

/-- The loop ends without an overflow, and the total is the number of blocks. -/
def PlanReturns (contract : ContractConfig) (chainId current : UInt64)
    (checkpoint : Option UInt64) (chunk : UInt64) : Prop :=
  ∃ p, plan contract chainId current checkpoint chunk = .ok p ∧
    p.totalBlocks.toNat = current.toNat + 1 - (checkpoint.getD contract.startBlock).toNat

theorem planReturns_iff (contract : ContractConfig) (chainId current : UInt64)
    (checkpoint : Option UInt64) (chunk : UInt64) :
    PlanReturns contract chainId current checkpoint chunk ↔
      current < checkpoint.getD contract.startBlock ∨ (0 < chunk ∧
        lastEnd current.toNat chunk.toNat (checkpoint.getD contract.startBlock).toNat < 2 ^ 64) := by
  rw [← plan_ok_iff contract chainId current checkpoint chunk]
  constructor
  · intro ⟨p, hp, _⟩
    exact ⟨p, hp⟩
  · intro ⟨p, hp⟩
    refine ⟨p, hp, ?_⟩
    by_cases hlt : current < checkpoint.getD contract.startBlock
    · have hlt' := UInt64.lt_iff_toNat_lt.mp hlt
      obtain ⟨-, ⟨-, -, htotal⟩ | ⟨hle, -, -⟩⟩ := plan_cases hp
      · rw [htotal, UInt64.toNat_zero]
        omega
      · exact absurd hle (UInt64.not_le.mpr hlt)
    · obtain ⟨-, htotal⟩ := plan_chunked hp (UInt64.not_lt.mp hlt)
      omega

/-- For a chain of an accepted configuration the planner returns exactly when there is nothing to
plan, or the chain's block range is not zero and the last chunk ends within 64 bits. -/
theorem plan_returns_iff {isJson : String → Bool} {b : ConfigBuilder} {config : Config}
    (hbuild : b.build isJson = .ok config) {chain : ChainConfig} (hchain : chain ∈ config.chains)
    (contract : ContractConfig) (current : UInt64) (checkpoint : Option UInt64) :
    PlanReturns contract chain.chainId current checkpoint (config.chunkSize chain.chainId) ↔
      current < checkpoint.getD contract.startBlock ∨
      (0 < chain.maxBlockRange.getD BackfillCoordinator.defaultChunkSize ∧
        lastEnd current.toNat
          (chain.maxBlockRange.getD BackfillCoordinator.defaultChunkSize).toNat
          (checkpoint.getD contract.startBlock).toNat < 2 ^ 64) := by
  have hnodup := Config.nodup_chainIds (ConfigBuilder.build_ok hbuild)
  rw [Config.chunkSize_of_mem hnodup hchain]
  exact planReturns_iff contract chain.chainId current checkpoint _

theorem build_localBuilder (maxBlockRange : Option UInt64) :
    (localBuilder maxBlockRange []).build (fun _ => true) = .ok (localConfig maxBlockRange []) := by
  rfl

theorem plan_returns_iff_ten :
    PlanReturns ⟨"Token", 100⟩ 1 125 none ((localConfig (some 10) []).chunkSize 1) := by
  have hchain : localChain (some 10) ∈ (localConfig (some 10) []).chains := List.mem_singleton_self _
  apply (plan_returns_iff (build_localBuilder (some 10)) hchain ⟨"Token", 100⟩ 125 none).mpr
  exact .inr ⟨by decide, by decide⟩

/-- A block range of zero is accepted, and the loop stays at its first block. -/
theorem plan_not_returns :
    ¬∀ (isJson : String → Bool) (b : ConfigBuilder) (config : Config) (chain : ChainConfig)
      (contract : ContractConfig) (current : UInt64) (checkpoint : Option UInt64),
      b.build isJson = .ok config → chain ∈ config.chains →
      PlanReturns contract chain.chainId current checkpoint (config.chunkSize chain.chainId) := by
  intro h
  obtain ⟨p, hp, -⟩ := h (fun _ => true) (localBuilder (some 0) []) (localConfig (some 0) [])
    (localChain (some 0)) ⟨"Token", 100⟩ 125 none (build_localBuilder (some 0))
    (List.mem_singleton_self _)
  have hrun : plan ⟨"Token", 100⟩ 1 125 none 0 = .error .endless := by decide
  exact absurd (hp.symm.trans hrun) (by simp)

end ForgeIndex
