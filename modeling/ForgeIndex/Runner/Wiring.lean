import ForgeIndex.Backfill.Ownership
import ForgeIndex.Config.Validation
import ForgeIndex.Lib.Filling

/-!
# The wiring of the workers

The part of `ForgeIndexRunner::run` that makes a client for each chain and a worker for each
contract on each of its chains.  The maker of clients and the ABI parser are parameters.
-/

namespace ForgeIndex

/-- `workers` and `chain_contracts`. -/
structure Wiring (C : Type) where
  workers : UInt64 × String → Option (BackfillWorker C)
  chainContracts : UInt64 → List Config.Contract

namespace Wiring

variable {C : Type}

def empty : Wiring C := ⟨fun _ => none, fun _ => []⟩

/-- A worker is put under its chain and name, and the contract to the end of its chain's list. -/
def insert (st : Wiring C) (chainId : UInt64) (worker : BackfillWorker C)
    (contract : Config.Contract) : Wiring C where
  workers := Function.update st.workers (chainId, contract.name) (some worker)
  chainContracts := Function.update st.chainContracts chainId
    (st.chainContracts chainId ++ [contract])

end Wiring

def Config.chainIdByName (config : Config) (name : String) : Option UInt64 :=
  (Filling.table ChainConfig.name config.chains name).map ChainConfig.chainId

namespace ForgeIndexRunner

variable {C : Type} (buildFromConfig : ChainConfig → Except String C)
  (parse : String → Except AbiError ParsedAbi)

/-- The loop that fills `rpc_clients`: its entries. -/
def buildClients : List ChainConfig → Except ForgeError (List (UInt64 × C))
  | [] => .ok []
  | chain :: chains =>
    match buildFromConfig chain with
    | .error e => .error (.rpc chain.chainId ("Failed to build RPC client: " ++ e))
    | .ok client => do
      let clients ← buildClients chains
      .ok ((chain.chainId, client) :: clients)

/-- `rpc_clients.get`. -/
def client (clients : List (UInt64 × C)) (chainId : UInt64) : Option C :=
  (Filling.table Prod.fst clients chainId).map Prod.snd

section Loops

variable (config : Config) (clients : List (UInt64 × C))

/-- The body of the loop over the chain names of a contract. -/
def wireChain (contract : Config.Contract) (abi : ParsedAbi) (st : Wiring C) (chainName : String) :
    Except ForgeError (Wiring C) :=
  match config.chainIdByName chainName with
  | none => .error (.config ("Contract '" ++ contract.name ++ "' references unknown chain '" ++
      chainName ++ "'"))
  | some chainId =>
    match client clients chainId with
    | none => .ok st
    | some c => .ok (st.insert chainId (BackfillWorker.ofAbi c abi contract chainId) contract)

/-- The body of the loop over the contracts. -/
def wireContract (st : Wiring C) (contract : Config.Contract) : Except ForgeError (Wiring C) :=
  match parse contract.abiJson with
  | .error e => .error (.abiDecode ("Failed to parse ABI for " ++ contract.name ++ ": " ++
      e.display))
  | .ok abi => contract.chainNames.foldlM (wireChain config clients contract abi) st

end Loops

/-- The wiring of a configuration. -/
def wire (config : Config) : Except ForgeError (Wiring C) := do
  let clients ← buildClients buildFromConfig config.chains
  config.contracts.foldlM (wireContract parse config clients) Wiring.empty

/-- The contracts with the chains that they are wired to, in the order of the loops. -/
def entries (config : Config) : List (UInt64 × Config.Contract) :=
  config.contracts.flatMap fun c => c.chainNames.filterMap fun n =>
    (config.chainIdByName n).map fun chainId => (chainId, c)

/-- The key of an entry's worker. -/
def slot (e : UInt64 × Config.Contract) : UInt64 × String := (e.1, e.2.name)

/-- The maps hold what these entries put in, one after the other. -/
structure Filled (clients : List (UInt64 × C)) (es : List (UInt64 × Config.Contract))
    (st : Wiring C) : Prop where
  workers : ∀ k w, st.workers k = some w → ∃ e c abi, Filling.table slot es k = some e ∧
    client clients e.1 = some c ∧ parse e.2.abiJson = .ok abi ∧
    w = BackfillWorker.ofAbi c abi e.2 e.1
  found : ∀ k e, Filling.table slot es k = some e → ∃ w, st.workers k = some w
  chainContracts : ∀ chainId,
    st.chainContracts chainId = (Filling.buckets Prod.fst es chainId).map Prod.snd

variable {parse} {clients : List (UInt64 × C)} {es : List (UInt64 × Config.Contract)}
  {st : Wiring C}

theorem Filled.empty : Filled parse clients [] (Wiring.empty : Wiring C) where
  workers := by
    intro k w h
    cases h
  found := by
    intro k e h
    cases h
  chainContracts _ := rfl

theorem Filled.insert (h : Filled parse clients es st) {e : UInt64 × Config.Contract} {c : C}
    {abi : ParsedAbi} (hc : client clients e.1 = some c) (habi : parse e.2.abiJson = .ok abi) :
    Filled parse clients (es ++ [e])
      (st.insert e.1 (BackfillWorker.ofAbi c abi e.2 e.1) e.2) where
  workers := by
    intro k w hw
    rw [Filling.table_append_singleton]
    by_cases hk : k = slot e
    · subst hk
      have heq : BackfillWorker.ofAbi c abi e.2 e.1 = w := by
        apply Option.some.inj
        rw [← hw]
        exact (Function.update_self (f := st.workers) _ _).symm
      exact ⟨e, c, abi, Function.update_self _ _ _, hc, habi, heq.symm⟩
    · rw [Function.update_of_ne hk]
      apply h.workers k w
      rw [← hw]
      exact (Function.update_of_ne (f := st.workers) hk _).symm
  found := by
    intro k e' he'
    by_cases hk : k = slot e
    · subst hk
      exact ⟨_, Function.update_self _ _ _⟩
    · rw [Filling.table_append_singleton, Function.update_of_ne hk] at he'
      obtain ⟨w, hw⟩ := h.found k e' he'
      exact ⟨w, (Function.update_of_ne (f := st.workers) hk _).trans hw⟩
  chainContracts := by
    intro chainId
    rw [Filling.buckets_append_singleton]
    by_cases hk : chainId = e.1
    · subst hk
      show Function.update st.chainContracts e.1 _ e.1 = _
      rw [Function.update_self, Function.update_self, List.map_append, h.chainContracts]
      rfl
    · show Function.update st.chainContracts e.1 _ chainId = _
      rw [Function.update_of_ne hk, Function.update_of_ne hk, h.chainContracts]

theorem foldlM_cons_ok {α β : Type} {f : α → β → Except ForgeError α} {a a' : α} {b : β}
    {bs : List β} (h : (b :: bs).foldlM f a = .ok a') :
    ∃ a₁, f a b = .ok a₁ ∧ bs.foldlM f a₁ = .ok a' := by
  rw [List.foldlM_cons] at h
  cases hf : f a b with
  | error e =>
    rw [hf] at h
    cases h
  | ok a₁ =>
    rw [hf] at h
    exact ⟨a₁, rfl, h⟩

variable {config : Config}

/-- The loop over the chain names of one contract, when every chain has a client. -/
theorem Filled.wireChains
    (hclients : ∀ name chainId, config.chainIdByName name = some chainId →
      ∃ c, client clients chainId = some c)
    {contract : Config.Contract} {abi : ParsedAbi} (habi : parse contract.abiJson = .ok abi)
    {names : List String} {st' : Wiring C} (h : Filled parse clients es st)
    (hrun : names.foldlM (wireChain config clients contract abi) st = .ok st') :
    Filled parse clients (es ++ names.filterMap fun n =>
      (config.chainIdByName n).map fun chainId => (chainId, contract)) st' := by
  induction names generalizing es st with
  | nil =>
    cases hrun
    rw [List.filterMap_nil, List.append_nil]
    exact h
  | cons name names ih =>
    obtain ⟨st₁, hstep, hrest⟩ := foldlM_cons_ok hrun
    unfold wireChain at hstep
    cases hid : config.chainIdByName name with
    | none =>
      rw [hid] at hstep
      cases hstep
    | some chainId =>
      obtain ⟨c, hc⟩ := hclients name chainId hid
      rw [hid] at hstep
      dsimp only at hstep
      rw [hc] at hstep
      cases hstep
      have hnext := ih (h.insert (e := (chainId, contract)) hc habi) hrest
      rw [List.append_assoc] at hnext
      rw [List.filterMap_cons, hid]
      exact hnext

theorem filled_of_contracts
    (hclients : ∀ name chainId, config.chainIdByName name = some chainId →
      ∃ c, client clients chainId = some c)
    {contracts : List Config.Contract} {st' : Wiring C} (h : Filled parse clients es st)
    (hrun : contracts.foldlM (wireContract parse config clients) st = .ok st') :
    Filled parse clients (es ++ contracts.flatMap fun c => c.chainNames.filterMap fun n =>
      (config.chainIdByName n).map fun chainId => (chainId, c)) st' := by
  induction contracts generalizing es st with
  | nil =>
    cases hrun
    rw [List.flatMap_nil, List.append_nil]
    exact h
  | cons contract contracts ih =>
    obtain ⟨st₁, hstep, hrest⟩ := foldlM_cons_ok hrun
    unfold wireContract at hstep
    cases habi : parse contract.abiJson with
    | error e =>
      rw [habi] at hstep
      cases hstep
    | ok abi =>
      rw [habi] at hstep
      have hnext := ih (h.wireChains hclients habi hstep) hrest
      rw [List.append_assoc] at hnext
      rw [List.flatMap_cons]
      exact hnext

theorem chain_of_name {name : String} {chainId : UInt64}
    (h : config.chainIdByName name = some chainId) :
    ∃ chain ∈ config.chains, chain.name = name ∧ chain.chainId = chainId := by
  obtain ⟨chain, hchain, hid⟩ := Option.map_eq_some_iff.mp h
  obtain ⟨hmem, hname⟩ := Filling.mem_of_table hchain
  exact ⟨chain, hmem, hname, hid⟩

theorem chainIdByName_inj (hnodup : (config.chains.map ChainConfig.chainId).Nodup)
    {name name' : String} {chainId : UInt64} (h : config.chainIdByName name = some chainId)
    (h' : config.chainIdByName name' = some chainId) : name = name' := by
  obtain ⟨chain, hmem, hname, hid⟩ := chain_of_name h
  obtain ⟨chain', hmem', hname', hid'⟩ := chain_of_name h'
  have heq := List.inj_on_of_nodup_map hnodup hmem hmem' (hid.trans hid'.symm)
  rw [← hname, ← hname', heq]

theorem exists_chainIdByName {chain : ChainConfig} (hchain : chain ∈ config.chains) :
    ∃ chainId, config.chainIdByName chain.name = some chainId := by
  obtain ⟨chain', htable⟩ := Filling.exists_of_mem ChainConfig.name hchain
  exact ⟨chain'.chainId, by rw [Config.chainIdByName, htable, Option.map_some]⟩

theorem mem_entries {chainId : UInt64} {contract : Config.Contract} :
    (chainId, contract) ∈ entries config ↔ contract ∈ config.contracts ∧
      ∃ name ∈ contract.chainNames, config.chainIdByName name = some chainId := by
  unfold entries
  simp only [List.mem_flatMap, List.mem_filterMap, Option.map_eq_some_iff, Prod.mk.injEq]
  constructor
  · rintro ⟨c, hc, name, hname, chainId', hid, rfl, rfl⟩
    exact ⟨hc, name, hname, hid⟩
  · rintro ⟨hc, name, hname, hid⟩
    exact ⟨contract, hc, name, hname, chainId, hid, rfl, rfl⟩

/-- The entries of `rpc_clients`: one for each chain, with the client made for it. -/
theorem buildClients_spec {buildFromConfig : ChainConfig → Except String C}
    {chains : List ChainConfig} (h : buildClients buildFromConfig chains = .ok clients) :
    (∀ entry ∈ clients, ∃ chain ∈ chains, chain.chainId = entry.1 ∧
      buildFromConfig chain = .ok entry.2) ∧
    ∀ chain ∈ chains, ∃ c, (chain.chainId, c) ∈ clients := by
  induction chains generalizing clients with
  | nil =>
    cases h
    simp
  | cons chain chains ih =>
    unfold buildClients at h
    cases hbuild : buildFromConfig chain with
    | error e =>
      rw [hbuild] at h
      cases h
    | ok c =>
      rw [hbuild] at h
      cases hrest : buildClients buildFromConfig chains with
      | error e =>
        rw [hrest] at h
        cases h
      | ok rest =>
        rw [hrest] at h
        cases h
        obtain ⟨hfrom, hto⟩ := ih hrest
        constructor
        · intro entry hentry
          rcases List.mem_cons.mp hentry with rfl | hentry
          · exact ⟨chain, List.mem_cons_self, rfl, hbuild⟩
          · obtain ⟨chain', hmem, hspec⟩ := hfrom entry hentry
            exact ⟨chain', List.mem_cons_of_mem _ hmem, hspec⟩
        · intro chain' hchain'
          rcases List.mem_cons.mp hchain' with rfl | hchain'
          · exact ⟨c, List.mem_cons_self⟩
          · obtain ⟨c', hc'⟩ := hto chain' hchain'
            exact ⟨c', List.mem_cons_of_mem _ hc'⟩

theorem exists_client {buildFromConfig : ChainConfig → Except String C}
    (h : buildClients buildFromConfig config.chains = .ok clients) {chain : ChainConfig}
    (hchain : chain ∈ config.chains) : ∃ c, client clients chain.chainId = some c := by
  obtain ⟨c, hmem⟩ := (buildClients_spec h).2 chain hchain
  obtain ⟨entry, htable⟩ := Filling.exists_of_mem Prod.fst hmem
  exact ⟨entry.2, by rw [client, htable, Option.map_some]⟩

theorem client_eq_some {buildFromConfig : ChainConfig → Except String C}
    (h : buildClients buildFromConfig config.chains = .ok clients)
    (hnodup : (config.chains.map ChainConfig.chainId).Nodup) {chain : ChainConfig}
    (hchain : chain ∈ config.chains) {c : C} (hc : client clients chain.chainId = some c) :
    buildFromConfig chain = .ok c := by
  obtain ⟨entry, htable, rfl⟩ := Option.map_eq_some_iff.mp hc
  obtain ⟨hmem, hkey⟩ := Filling.mem_of_table htable
  obtain ⟨chain', hchain', hid, hbuild⟩ := (buildClients_spec h).1 entry hmem
  rw [← List.inj_on_of_nodup_map hnodup hchain' hchain (hid.trans hkey)]
  exact hbuild

/-- The names of chains with the names of the contracts on them, as the configuration gives
them. -/
def namePairs (config : Config) : List (String × String) :=
  config.contracts.flatMap fun c => c.chainNames.map fun n => (n, c.name)

/-- A chain name that a contract gives belongs to one chain, and no chain is given twice for one
contract name. -/
def Distinct (config : Config) : Prop :=
  (∀ c ∈ config.contracts, ∀ n ∈ c.chainNames, ∀ a ∈ config.chains, ∀ b ∈ config.chains,
    a.name = n → b.name = n → a = b) ∧ (namePairs config).Nodup

/-- On each of its chains a contract has the worker made from it, and it stands once in the
chain's list. -/
def OwnWorkers (buildFromConfig : ChainConfig → Except String C)
    (parse : String → Except AbiError ParsedAbi) (config : Config) (st : Wiring C) : Prop :=
  ∀ c ∈ config.contracts, ∀ n ∈ c.chainNames, ∀ chain ∈ config.chains, chain.name = n →
    (∃ rpc abi, buildFromConfig chain = .ok rpc ∧ parse c.abiJson = .ok abi ∧
      st.workers (chain.chainId, c.name) = some (BackfillWorker.ofAbi rpc abi c chain.chainId)) ∧
    c ∈ st.chainContracts chain.chainId ∧ ¬List.Duplicate c (st.chainContracts chain.chainId)

/-- The key of the worker for a pair of names. -/
def pairSlot (config : Config) (p : String × String) : Option (UInt64 × String) :=
  (config.chainIdByName p.1).map fun chainId => (chainId, p.2)

theorem nodup_slots_iff (hnodup : (config.chains.map ChainConfig.chainId).Nodup)
    (hknown : ∀ c ∈ config.contracts, ∀ n ∈ c.chainNames,
      ∃ chainId, config.chainIdByName n = some chainId) :
    ((entries config).map slot).Nodup ↔ (namePairs config).Nodup := by
  have hkey : (entries config).map slot = (namePairs config).filterMap (pairSlot config) := by
    unfold entries namePairs
    rw [List.map_flatMap, List.filterMap_flatMap]
    congr 1
    funext c
    rw [List.map_filterMap, List.filterMap_map]
    congr 1
    funext n
    show Option.map slot (Option.map (fun chainId => (chainId, c)) (config.chainIdByName n)) = _
    rw [Option.map_map]
    rfl
  rw [hkey]
  constructor
  · intro h
    rw [List.nodup_iff_sublist] at h ⊢
    intro p hp
    have hmem : p ∈ namePairs config := hp.subset List.mem_cons_self
    obtain ⟨c, hc, hpair⟩ := List.mem_flatMap.mp hmem
    obtain ⟨n, hn, rfl⟩ := List.mem_map.mp hpair
    obtain ⟨chainId, hid⟩ := hknown c hc n hn
    have hsome : pairSlot config (n, c.name) = some (chainId, c.name) := by
      rw [pairSlot, hid, Option.map_some]
    apply h (chainId, c.name)
    have hsub := hp.filterMap (pairSlot config)
    rw [List.filterMap_cons_some hsome, List.filterMap_cons_some hsome] at hsub
    exact hsub
  · intro h
    apply h.filterMap
    intro p p' q hp hp'
    obtain ⟨chainId, hid, rfl⟩ := Option.map_eq_some_iff.mp hp
    obtain ⟨chainId', hid', heq⟩ := Option.map_eq_some_iff.mp hp'
    rw [Prod.mk.injEq] at heq
    obtain ⟨rfl, hname⟩ := heq
    exact Prod.ext (chainIdByName_inj hnodup hid hid') hname.symm

/-- A contract stands once in its chain's list when its entry stands once among the chain's. -/
theorem Filled.once_iff (h : Filled parse clients es st) (chainId : UInt64)
    (contract : Config.Contract) : List.Duplicate contract (st.chainContracts chainId) ↔
      List.Duplicate (chainId, contract) (Filling.buckets Prod.fst es chainId) := by
  rw [h.chainContracts, List.duplicate_iff_sublist, List.duplicate_iff_sublist,
    Filling.buckets_apply]
  constructor
  · intro hsub
    obtain ⟨pair, hpair, hmap⟩ := List.sublist_map_iff.mp hsub
    obtain ⟨a, b, rfl⟩ :=
      List.length_eq_two.mp (by simpa using (congrArg List.length hmap).symm)
    have hfst (e : UInt64 × Config.Contract) (he : e ∈ [a, b]) : e.1 = chainId := by
      have hmem := List.mem_filter.mp (hpair.subset he)
      simpa using hmem.2
    simp only [List.map_cons, List.map_nil, List.cons.injEq, and_true] at hmap
    have ha : a = (chainId, contract) := Prod.ext (hfst a (by simp)) hmap.1.symm
    have hb : b = (chainId, contract) := Prod.ext (hfst b (by simp)) hmap.2.symm
    rw [ha, hb] at hpair
    exact hpair
  · intro hsub
    exact hsub.map Prod.snd

section Own

variable {buildFromConfig : ChainConfig → Except String C}
  (hnodup : (config.chains.map ChainConfig.chainId).Nodup)

include hnodup

/-- The list of a chain holds a contract only under the id that the name stands for. -/
theorem Filled.names_of_own (h : Filled parse clients (entries config) st)
    (hown : OwnWorkers buildFromConfig parse config st) :
    ∀ c ∈ config.contracts, ∀ n ∈ c.chainNames, ∀ a ∈ config.chains, ∀ b ∈ config.chains,
      a.name = n → b.name = n → a = b := by
  intro c hc n hn
  have hid : ∀ chain ∈ config.chains, chain.name = n →
      config.chainIdByName n = some chain.chainId := by
    intro chain hchain hname
    obtain ⟨-, hmem, -⟩ := hown c hc n hn chain hchain hname
    rw [h.chainContracts, Filling.buckets_apply] at hmem
    obtain ⟨e, he, rfl⟩ := List.mem_map.mp hmem
    obtain ⟨hentry, hfst⟩ := List.mem_filter.mp he
    have hfst : e.1 = chain.chainId := by simpa using hfst
    obtain ⟨-, n', -, hid'⟩ := mem_entries.mp (show (e.1, e.2) ∈ entries config from hentry)
    obtain ⟨chain', hchain', hname', hsame⟩ := chain_of_name hid'
    have heq := List.inj_on_of_nodup_map hnodup hchain' hchain (hsame.trans hfst)
    rw [← hname, ← heq, hname', hid', hsame]
  intro a ha b hb hna hnb
  have hsame := (hid a ha hna).symm.trans (hid b hb hnb)
  exact List.inj_on_of_nodup_map hnodup ha hb (Option.some.inj hsame)

omit hnodup in
theorem Filled.found_of_own (h : Filled parse clients (entries config) st)
    (hown : OwnWorkers buildFromConfig parse config st) :
    ∀ e ∈ entries config, Filling.table slot (entries config) (slot e) = some e ∧
      ¬List.Duplicate e (Filling.buckets Prod.fst (entries config) e.1) := by
  intro e he
  obtain ⟨hc, n, hn, hid⟩ := mem_entries.mp (show (e.1, e.2) ∈ entries config from he)
  obtain ⟨chain, hchain, hname, hchainId⟩ := chain_of_name hid
  obtain ⟨⟨rpc, abi, -, -, hworker⟩, -, hdup⟩ := hown e.2 hc n hn chain hchain hname
  rw [hchainId] at hworker hdup
  constructor
  · obtain ⟨e', c', abi', htable, -, -, heq⟩ := h.workers _ _ hworker
    have hcontract : e.2 = e'.2 := congrArg BackfillWorker.contract heq
    have hid' : e.1 = e'.1 := congrArg BackfillWorker.chainId heq
    rw [show slot e = (e.1, e.2.name) from rfl, htable, Prod.ext hid' hcontract]
  · rw [← h.once_iff]
    exact hdup

theorem Filled.own (h : Filled parse clients (entries config) st)
    (hclients : buildClients buildFromConfig config.chains = .ok clients)
    (hknown : ∀ c ∈ config.contracts, ∀ n ∈ c.chainNames,
      ∃ chainId, config.chainIdByName n = some chainId)
    (hnames : ∀ c ∈ config.contracts, ∀ n ∈ c.chainNames, ∀ a ∈ config.chains,
      ∀ b ∈ config.chains, a.name = n → b.name = n → a = b)
    (hfound : ∀ e ∈ entries config, Filling.table slot (entries config) (slot e) = some e ∧
      ¬List.Duplicate e (Filling.buckets Prod.fst (entries config) e.1)) :
    OwnWorkers buildFromConfig parse config st := by
  intro c hc n hn chain hchain hname
  obtain ⟨chainId, hid⟩ := hknown c hc n hn
  obtain ⟨chain', hchain', hname', rfl⟩ := chain_of_name hid
  have heq := hnames c hc n hn chain' hchain' chain hchain hname' hname
  subst heq
  have he : (chain'.chainId, c) ∈ entries config := mem_entries.mpr ⟨hc, n, hn, hid⟩
  obtain ⟨htable, hdup⟩ := hfound _ he
  refine ⟨?_, ?_, ?_⟩
  · obtain ⟨w, hw⟩ := h.found _ _ htable
    obtain ⟨e, rpc, abi, hother, hrpc, habi, rfl⟩ := h.workers _ _ hw
    rw [htable] at hother
    cases hother
    exact ⟨rpc, abi, client_eq_some hclients hnodup hchain hrpc, habi, hw⟩
  · rw [h.chainContracts, Filling.buckets_apply]
    exact List.mem_map.mpr ⟨_, List.mem_filter.mpr ⟨he, by simp⟩, rfl⟩
  · rw [h.once_iff]
    exact hdup

end Own

/-- The maps of a run that returns are filled with the entries of the configuration. -/
theorem filled_of_wire {buildFromConfig : ChainConfig → Except String C}
    (hwire : wire buildFromConfig parse config = .ok st) :
    ∃ clients, buildClients buildFromConfig config.chains = .ok clients ∧
      Filled parse clients (entries config) st := by
  unfold wire at hwire
  cases hclients : buildClients buildFromConfig config.chains with
  | error e =>
    rw [hclients] at hwire
    cases hwire
  | ok clients =>
    rw [hclients] at hwire
    refine ⟨clients, rfl, filled_of_contracts ?_ Filled.empty hwire⟩
    intro name chainId hid
    obtain ⟨chain, hchain, -, rfl⟩ := chain_of_name hid
    exact exists_client hclients hchain

/-- Every contract of an accepted configuration gets its own worker on each of its chains exactly
when the names are distinct. -/
theorem wire_ownWorkers_iff {isJson : String → Bool} {b : ConfigBuilder}
    (hbuild : b.build isJson = .ok config) {buildFromConfig : ChainConfig → Except String C}
    {parse : String → Except AbiError ParsedAbi} {st : Wiring C}
    (hwire : wire buildFromConfig parse config = .ok st) :
    OwnWorkers buildFromConfig parse config st ↔ Distinct config := by
  have hvalid := ConfigBuilder.build_ok hbuild
  have hnodup := Config.nodup_chainIds hvalid
  have hknown : ∀ c ∈ config.contracts, ∀ n ∈ c.chainNames,
      ∃ chainId, config.chainIdByName n = some chainId := by
    intro c hc n hn
    obtain ⟨chain, hchain, rfl⟩ := Config.exists_chain hvalid hc hn
    exact exists_chainIdByName hchain
  obtain ⟨clients, hclients, hfilled⟩ := filled_of_wire hwire
  have honce := Filling.found_once_iff slot Prod.fst (entries config)
  rw [nodup_slots_iff hnodup hknown] at honce
  unfold Distinct
  rw [← honce]
  constructor
  · intro hown
    exact ⟨hfilled.names_of_own hnodup hown, hfilled.found_of_own hown⟩
  · intro ⟨hnames, hfound⟩
    exact hfilled.own hnodup hclients hknown hnames hfound

/-- A contract named `Pool` at the address of twenty times this byte. -/
def poolAt (byte : UInt8) : Config.Contract :=
  BackfillWorker.pingContract (.single ⟨List.replicate 20 byte, List.length_replicate⟩)

/-- Its worker on the chain with the id 1. -/
def poolWorker (byte : UInt8) : BackfillWorker Unit :=
  BackfillWorker.ofAbi () BackfillWorker.pingAbi (poolAt byte) 1

theorem wire_ownWorkers_iff_one :
    ∃ st, wire (fun _ => .ok ()) (fun _ => .ok BackfillWorker.pingAbi)
        (localConfig none [poolAt 0]) = .ok st ∧
      OwnWorkers (fun _ => .ok ()) (fun _ => .ok BackfillWorker.pingAbi)
        (localConfig none [poolAt 0]) st := by
  have hbuild : (localBuilder none [poolAt 0]).build (fun _ => true) =
      .ok (localConfig none [poolAt 0]) := rfl
  have hwire : wire (fun _ => .ok ()) (fun _ => .ok BackfillWorker.pingAbi)
      (localConfig none [poolAt 0]) = .ok (Wiring.empty.insert 1 (poolWorker 0) (poolAt 0)) := rfl
  refine ⟨_, hwire, (wire_ownWorkers_iff hbuild hwire).mpr ⟨?_, ?_⟩⟩
  · intro c _ n _ a ha b hb _ _
    rw [List.mem_singleton.mp ha, List.mem_singleton.mp hb]
  · exact List.nodup_singleton _

/-- Two contracts named `Pool` on one chain are accepted, and the worker of the first is replaced
by that of the second. -/
theorem wire_not_ownWorkers :
    ¬∀ (isJson : String → Bool) (b : ConfigBuilder) (config : Config)
      (buildFromConfig : ChainConfig → Except String Unit)
      (parse : String → Except AbiError ParsedAbi) (st : Wiring Unit),
      b.build isJson = .ok config → wire buildFromConfig parse config = .ok st →
      OwnWorkers buildFromConfig parse config st := by
  intro h
  have hbuild : (localBuilder none [poolAt 0, poolAt 1]).build (fun _ => true) =
      .ok (localConfig none [poolAt 0, poolAt 1]) := rfl
  have hwire : wire (fun _ => .ok ()) (fun _ => .ok BackfillWorker.pingAbi)
      (localConfig none [poolAt 0, poolAt 1]) =
        .ok ((Wiring.empty.insert 1 (poolWorker 0) (poolAt 0)).insert 1 (poolWorker 1)
          (poolAt 1)) := rfl
  obtain ⟨⟨rpc, abi, -, -, hworker⟩, -⟩ := h _ _ _ _ _ _ hbuild hwire (poolAt 0)
    List.mem_cons_self "mainnet" (List.mem_singleton_self _) (localChain none)
    (List.mem_singleton_self _) rfl
  have hlast : ((Wiring.empty.insert 1 (poolWorker 0) (poolAt 0)).insert 1 (poolWorker 1)
      (poolAt 1)).workers (1, "Pool") = some (poolWorker 1) := rfl
  have hsame := congrArg BackfillWorker.addresses (Option.some.inj (hlast.symm.trans hworker))
  have hbytes : [List.replicate 20 (1 : UInt8)] = [List.replicate 20 0] :=
    congrArg (List.map Address.bytes) hsame
  exact absurd hbytes (by decide)

end ForgeIndexRunner

end ForgeIndex
