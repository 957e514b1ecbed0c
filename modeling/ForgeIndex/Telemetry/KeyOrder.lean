import ForgeIndex.Lib.SortedMap
import ForgeIndex.Telemetry.Distinct

/-!
# The order of keys and the build id

The canonical text sorts the keys of every object, and the handler keys are sorted before they
are hashed: no order in which a map or a list of handlers is walked reaches the hash.
-/

namespace ForgeIndex

/-- The key and the value. -/
def Member.entry : Member → String × Json
  | .mk key value => (key, value)

def Member.key (m : Member) : String := m.entry.1

namespace Json

mutual

/-- Equal up to the order of the keys in the objects at every level.  No object has a key
twice. -/
inductive SameUpToOrder : Json → Json → Prop
  | null : SameUpToOrder .null .null
  | bool (b : Bool) : SameUpToOrder (.bool b) (.bool b)
  | number (text : String) : SameUpToOrder (.number text) (.number text)
  | string (s : String) : SameUpToOrder (.string s) (.string s)
  | array {vs ws : List Json} (items : SameItems vs ws) : SameUpToOrder (.array vs) (.array ws)
  | object {ms ns ns' : List Member} (keys : (ms.map Member.key).Nodup)
      (members : SameMembers ms ns) (order : ns.Perm ns') :
      SameUpToOrder (.object ms) (.object ns')

inductive SameItems : List Json → List Json → Prop
  | nil : SameItems [] []
  | cons {v w : Json} {vs ws : List Json} (head : SameUpToOrder v w) (tail : SameItems vs ws) :
      SameItems (v :: vs) (w :: ws)

/-- The same keys in the same order, with values that are the same up to the order inside. -/
inductive SameMembers : List Member → List Member → Prop
  | nil : SameMembers [] []
  | cons (key : String) {v w : Json} {ms ns : List Member} (head : SameUpToOrder v w)
      (tail : SameMembers ms ns) : SameMembers (.mk key v :: ms) (.mk key w :: ns)

end

end Json

theorem canonicalMembers_eq (ms : List Member) :
    canonicalMembers ms = ms.map fun m => (m.key, canonicalJson m.entry.2) := by
  induction ms with
  | nil => rfl
  | cons m ms ih =>
    obtain ⟨key, value⟩ := m
    rw [canonicalMembers, ih]
    rfl

theorem keys_canonicalMembers (ms : List Member) :
    (canonicalMembers ms).map Prod.fst = ms.map Member.key := by
  rw [canonicalMembers_eq, List.map_map]
  rfl

theorem canonicalJson_object_perm {ms ns : List Member} (hkeys : (ms.map Member.key).Nodup)
    (h : (canonicalMembers ms).Perm (canonicalMembers ns)) :
    canonicalJson (.object ms) = canonicalJson (.object ns) := by
  rw [← keys_canonicalMembers] at hkeys
  rw [canonicalJson, canonicalJson, SortedMap.mergeSort_entries_eq hkeys h]

open Json

mutual

theorem Json.SameUpToOrder.canonicalJson_eq :
    {v w : Json} → v.SameUpToOrder w → canonicalJson v = canonicalJson w
  | _, _, .null => rfl
  | _, _, .bool _ => rfl
  | _, _, .number _ => rfl
  | _, _, .string _ => rfl
  | _, _, .array items => by
    rw [canonicalJson, canonicalJson, items.canonicalItems_eq]
  | _, _, .object keys members order => by
    apply canonicalJson_object_perm keys
    rw [members.canonicalMembers_eq, ForgeIndex.canonicalMembers_eq,
      ForgeIndex.canonicalMembers_eq]
    exact order.map _

theorem Json.SameItems.canonicalItems_eq :
    {vs ws : List Json} → SameItems vs ws → canonicalItems vs = canonicalItems ws
  | _, _, .nil => rfl
  | _, _, .cons head tail => by
    rw [canonicalItems, canonicalItems, head.canonicalJson_eq, tail.canonicalItems_eq]

theorem Json.SameMembers.canonicalMembers_eq :
    {ms ns : List Member} → SameMembers ms ns → canonicalMembers ms = canonicalMembers ns
  | _, _, .nil => rfl
  | _, _, .cons key head tail => by
    rw [canonicalMembers, canonicalMembers, head.canonicalJson_eq, tail.canonicalMembers_eq]

end

/-- The keys of a map come in order. -/
def KeysSorted (ms : List Member) : Prop := (ms.map Member.key).Pairwise (· < ·)

theorem KeysSorted.nodup {ms : List Member} (h : KeysSorted ms) : (ms.map Member.key).Nodup :=
  h.imp ne_of_lt

theorem keysSorted_of_wellFormed {ms : List Member} (h : WellFormedMembers ms) : KeysSorted ms := by
  induction ms with
  | nil => exact List.Pairwise.nil
  | cons m ms ih =>
    obtain ⟨key, value⟩ := m
    apply List.Pairwise.cons _ (ih h.2.2)
    intro k hk
    obtain ⟨⟨k', v'⟩, hm, rfl⟩ := List.mem_map.mp hk
    exact h.1 k' v' hm

namespace Json

mutual

theorem SameUpToOrder.refl : (v : Json) → v.WellFormed → v.SameUpToOrder v
  | .null, _ => .null
  | .bool b, _ => .bool b
  | .number text, _ => .number text
  | .string s, _ => .string s
  | .array vs, h => .array (SameItems.refl vs h)
  | .object ms, h =>
    .object (keysSorted_of_wellFormed h).nodup (SameMembers.refl ms h) (List.Perm.refl ms)

theorem SameItems.refl : (vs : List Json) → WellFormedItems vs → SameItems vs vs
  | [], _ => .nil
  | v :: vs, h => .cons (SameUpToOrder.refl v h.1) (SameItems.refl vs h.2)

theorem SameMembers.refl : (ms : List Member) → WellFormedMembers ms → SameMembers ms ms
  | [], _ => .nil
  | .mk key value :: ms, h =>
    .cons key (SameUpToOrder.refl value h.2.1) (SameMembers.refl ms h.2.2)

end

theorem Plain.same {v : Json} (h : v.Plain) : v.SameUpToOrder v := .refl v h.wellFormed

theorem sameItems_map {α : Type} {f g : α → Json} {as : List α}
    (h : ∀ a ∈ as, (f a).SameUpToOrder (g a)) : SameItems (as.map f) (as.map g) := by
  induction as with
  | nil => exact .nil
  | cons a as ih =>
    rw [List.forall_mem_cons] at h
    exact .cons h.1 (ih h.2)

theorem keysSorted_insert {ms : List Member} (h : KeysSorted ms) (key : String) (value : Json) :
    KeysSorted (insert key value ms) := by
  induction ms with
  | nil => exact List.pairwise_singleton _ key
  | cons m ms ih =>
    obtain ⟨k, v⟩ := m
    obtain ⟨hk, hms⟩ := List.pairwise_cons.mp h
    unfold insert
    split_ifs with hlt heq
    · apply List.Pairwise.cons _ h
      intro k' hk'
      rcases List.mem_cons.mp hk' with rfl | hk'
      · exact hlt
      · exact lt_trans hlt (hk k' hk')
    · subst heq
      exact h
    · apply List.Pairwise.cons _ (ih hms)
      intro k' hk'
      obtain ⟨m, hm, rfl⟩ := List.mem_map.mp hk'
      rcases mem_insert hm with rfl | hm
      · exact lt_of_le_of_ne (not_lt.mp hlt) (Ne.symm heq)
      · exact hk m.key (List.mem_map_of_mem hm)

theorem SameMembers.insert {ms ns : List Member} (h : SameMembers ms ns) (key : String)
    {v w : Json} (hvalue : v.SameUpToOrder w) :
    SameMembers (insert key v ms) (Json.insert key w ns) := by
  induction ms generalizing ns with
  | nil =>
    cases h
    exact .cons key hvalue .nil
  | cons m ms ih =>
    cases h with
    | cons k hhead htail =>
      unfold Json.insert
      split_ifs
      · exact .cons key hvalue (.cons k hhead htail)
      · exact .cons key hvalue htail
      · exact .cons k hhead (ih htail)

theorem same_ofFields {fs gs : List (String × Json)}
    (h : List.Forall₂ (fun f g => f.1 = g.1 ∧ f.2.SameUpToOrder g.2) fs gs) :
    (ofFields fs).SameUpToOrder (ofFields gs) := by
  -- the maps on both sides grow together
  have hfold : ∀ ms ns : List Member, KeysSorted ms → SameMembers ms ns →
      KeysSorted (fs.foldl (fun ms f => insert f.1 f.2 ms) ms) ∧
        SameMembers (fs.foldl (fun ms f => insert f.1 f.2 ms) ms)
          (gs.foldl (fun ms f => insert f.1 f.2 ms) ns) := by
    induction h with
    | nil => exact fun _ _ hsorted hsame => ⟨hsorted, hsame⟩
    | @cons f g fs gs hfield _ ih =>
      intro ms ns hsorted hsame
      rw [List.foldl_cons, List.foldl_cons, ← hfield.1]
      exact ih _ _ (keysSorted_insert hsorted f.1 f.2) (hsame.insert f.1 hfield.2)
  obtain ⟨hsorted, hsame⟩ := hfold [] [] List.Pairwise.nil .nil
  exact .object hsorted.nodup hsame (List.Perm.refl _)

theorem insert_perm {key : String} {value : Json} {ms : List Member}
    (h : key ∉ ms.map Member.key) : (insert key value ms).Perm (.mk key value :: ms) := by
  induction ms with
  | nil => exact List.Perm.refl _
  | cons m ms ih =>
    obtain ⟨k, v⟩ := m
    rw [List.map_cons, List.mem_cons, not_or] at h
    unfold insert
    split_ifs with hlt heq
    · exact List.Perm.refl _
    · exact absurd heq h.1
    · exact ((ih h.2).cons _).trans (List.Perm.swap _ _ _)

theorem ofFields_perm {fields : List (String × Json)} (hkeys : (fields.map Prod.fst).Nodup) :
    ∃ ms, ofFields fields = .object ms ∧ (ms.map Member.entry).Perm fields := by
  have hfold : ∀ ms : List Member, (ms.map Member.entry ++ fields |>.map Prod.fst).Nodup →
      ((fields.foldl (fun ms f => insert f.1 f.2 ms) ms).map Member.entry).Perm
        (ms.map Member.entry ++ fields) := by
    clear hkeys
    induction fields with
    | nil =>
      intro ms _
      rw [List.append_nil]
      exact List.Perm.refl _
    | cons f fs ih =>
      intro ms hms
      have hnew : f.1 ∉ ms.map Member.key := by
        intro hmem
        rw [List.map_append, List.map_map] at hms
        exact (List.disjoint_of_nodup_append hms) hmem List.mem_cons_self
      have hentry : ((insert f.1 f.2 ms).map Member.entry ++ fs).Perm
          (ms.map Member.entry ++ f :: fs) :=
        (((insert_perm hnew).map Member.entry).append_right fs).trans List.perm_middle.symm
      exact (ih _ ((hentry.map Prod.fst).nodup_iff.mpr hms)).trans hentry
  exact ⟨_, rfl, hfold [] hkeys⟩

/-- The map that `to_value` makes of entries in any order is that of the entries. -/
theorem same_ofFields_walk {ms : List Member} (hwell : WellFormedMembers ms)
    {walk : List (String × Json)} (h : walk.Perm (ms.map Member.entry)) :
    (Json.object ms).SameUpToOrder (ofFields walk) := by
  have hsorted := keysSorted_of_wellFormed hwell
  have hkeys : (walk.map Prod.fst).Nodup := by
    rw [(h.map Prod.fst).nodup_iff, List.map_map]
    exact hsorted.nodup
  obtain ⟨ns, hns, hperm⟩ := ofFields_perm hkeys
  have hentry : Function.Injective Member.entry := by
    intro m n hmn
    cases m
    cases n
    cases hmn
    rfl
  rw [hns]
  exact .object hsorted.nodup (.refl ms hwell)
    ((List.map_perm_map_iff hentry).mp (h.symm.trans hperm.symm))

end Json

section Config

variable (keccak256 : Bytes → Hash32)
variable (args : FilterConfig → Json)

/-- The filter when `args` is what the walk over the map of its arguments makes. -/
def FilterConfig.toJsonWith (f : FilterConfig) : Json := Json.ofFields
  [("event_name", .string f.eventName), ("args", args f)]

def Config.Contract.toJsonWith (c : Config.Contract) : Json := Json.ofFields
  [("name", .string c.name), ("abi_json", .string c.abiJson),
    ("chain_names", Json.ofStrings c.chainNames), ("address", c.address.toJson keccak256),
    ("start_block", Json.ofNat c.startBlock.toNat),
    ("end_block", Json.ofOption EndBlock.toJson c.endBlock),
    ("filter", Json.ofOption (fun fs => .array (fs.map (FilterConfig.toJsonWith args))) c.filter),
    ("include_transaction", .bool c.includeTransaction), ("include_trace", .bool c.includeTrace)]

def Config.toJsonWith (config : Config) : Json := Json.ofFields
  [("chains", .array (config.chains.map ChainConfig.toJson)),
    ("contracts", .array (config.contracts.map (Config.Contract.toJsonWith keccak256 args))),
    ("accounts", .array (config.accounts.map (AccountConfig.toJson keccak256))),
    ("block_intervals", .array (config.blockIntervals.map BlockIntervalConfig.toJson)),
    ("schema", config.schema.toJson Json.ofFields), ("database", config.database.toJson),
    ("ordering", config.ordering.toJson)]

/-- `compute_build_id` when the maps of the configuration are walked like this. -/
def BuildInput.computeBuildIdWith (sha256 : Bytes → Bytes) (input : BuildInput) : String :=
  String.ofList (Hex.encode (sha256
    (Utf8.encode (canonicalJson (input.config.toJsonWith keccak256 args)) ++
      Utf8.encode (canonicalJson (input.schema.toJson Json.ofFields)) ++
      (sortKeys input.handlerKeys).flatMap fun key => Utf8.encode key.toList)))

theorem BuildInput.computeBuildIdWith_object (sha256 : Bytes → Bytes) (input : BuildInput) :
    input.computeBuildIdWith keccak256 (fun f => .object f.args) sha256 =
      input.computeBuildId keccak256 sha256 := rfl

variable {args} (hargs : ∀ f, (Json.object f.args).SameUpToOrder (args f))

include hargs

theorem FilterConfig.same_toJsonWith (f : FilterConfig) :
    f.toJson.SameUpToOrder (f.toJsonWith args) := by
  apply Json.same_ofFields
  refine .cons ⟨rfl, ?_⟩ (.cons ⟨rfl, hargs f⟩ .nil)
  exact (Json.plain_string f.eventName).same

theorem Config.Contract.same_toJsonWith (c : Config.Contract) :
    (c.toJson keccak256).SameUpToOrder (c.toJsonWith keccak256 args) := by
  have haddress := AddressConfig.plain_toJson keccak256 c.address
  have hend := Json.plain_ofOption fun e (_ : e ∈ c.endBlock) => EndBlock.plain_toJson e
  have hfilter : (Json.ofOption (fun fs => .array (fs.map FilterConfig.toJson)) c.filter).SameUpToOrder
      (Json.ofOption (fun fs => .array (fs.map (FilterConfig.toJsonWith args))) c.filter) := by
    cases c.filter with
    | none => exact .null
    | some fs => exact .array (Json.sameItems_map fun f _ => f.same_toJsonWith hargs)
  apply Json.same_ofFields
  refine .cons ⟨rfl, (Json.plain_string _).same⟩ (.cons ⟨rfl, (Json.plain_string _).same⟩
    (.cons ⟨rfl, (Json.plain_ofStrings _).same⟩ (.cons ⟨rfl, haddress.same⟩
    (.cons ⟨rfl, (Json.plain_ofNat _).same⟩ (.cons ⟨rfl, hend.same⟩ (.cons ⟨rfl, hfilter⟩
    (.cons ⟨rfl, (Json.plain_bool _).same⟩ (.cons ⟨rfl, (Json.plain_bool _).same⟩ .nil))))))))

theorem Config.same_toJsonWith (config : Config) :
    (config.toJson keccak256).SameUpToOrder (config.toJsonWith keccak256 args) := by
  have hchains := Json.plain_map fun c (_ : c ∈ config.chains) => ChainConfig.plain_toJson c
  have hcontracts := Json.sameItems_map fun c (_ : c ∈ config.contracts) =>
    c.same_toJsonWith keccak256 hargs
  have haccounts := Json.plain_map fun a (_ : a ∈ config.accounts) =>
    AccountConfig.plain_toJson keccak256 a
  have hintervals := Json.plain_map fun b (_ : b ∈ config.blockIntervals) =>
    BlockIntervalConfig.plain_toJson b
  apply Json.same_ofFields
  exact .cons ⟨rfl, hchains.same⟩ (.cons ⟨rfl, .array hcontracts⟩ (.cons ⟨rfl, haccounts.same⟩
    (.cons ⟨rfl, hintervals.same⟩ (.cons ⟨rfl, (Schema.plain_toJson config.schema).same⟩
    (.cons ⟨rfl, (DatabaseConfig.plain_toJson config.database).same⟩
    (.cons ⟨rfl, (EventOrdering.plain_toJson config.ordering).same⟩ .nil))))))

end Config

theorem sortKeys_perm {keys keys' : List String} (h : keys.Perm keys') :
    sortKeys keys = sortKeys keys' := by
  apply SortedMap.mergeSort_eq_of_perm _ _ _ h
  · intro a b c hab hbc
    exact decide_eq_true (le_trans (of_decide_eq_true hab) (of_decide_eq_true hbc))
  · intro a b
    simpa using le_total a b
  · intro a b _ _ hab hba
    exact le_antisymm (of_decide_eq_true hab) (of_decide_eq_true hba)

theorem BuildInput.computeBuildIdWith_eq (keccak256 : Bytes → Hash32) (sha256 : Bytes → Bytes)
    (input : BuildInput) {keys : List String} (hkeys : keys.Perm input.handlerKeys)
    {args : FilterConfig → Json} (hargs : ∀ f, (Json.object f.args).SameUpToOrder (args f)) :
    ({ input with handlerKeys := keys } : BuildInput).computeBuildIdWith keccak256 args sha256 =
      input.computeBuildId keccak256 sha256 := by
  have hconfig : canonicalJson (input.config.toJson keccak256) =
      canonicalJson (input.config.toJsonWith keccak256 args) :=
    (input.config.same_toJsonWith keccak256 hargs).canonicalJson_eq
  unfold computeBuildIdWith computeBuildId bytes
  rw [sortKeys_perm hkeys, hconfig]

/-- Values that are the same up to the order of their keys have one canonical text, and the build
id depends neither on the order of the handler keys nor on the order in which the maps of the
configuration are walked. -/
theorem buildId_ignores_order (keccak256 : Bytes → Hash32) (sha256 : Bytes → Bytes) :
    (∀ v w : Json, v.SameUpToOrder w → canonicalJson v = canonicalJson w) ∧
    (∀ (input : BuildInput) (keys : List String) (args : FilterConfig → Json),
      keys.Perm input.handlerKeys → (∀ f, (Json.object f.args).SameUpToOrder (args f)) →
      ({ input with handlerKeys := keys } : BuildInput).computeBuildIdWith keccak256 args sha256 =
        input.computeBuildId keccak256 sha256) ∧
    ∀ (input : BuildInput) (keys : List String) (walk : FilterConfig → List (String × Json)),
      keys.Perm input.handlerKeys → (∀ f, (walk f).Perm (f.args.map Member.entry)) →
      ({ input with handlerKeys := keys } : BuildInput).computeBuildIdWith keccak256
          (fun f => Json.ofFields (walk f)) sha256 =
        input.computeBuildId keccak256 sha256 := by
  refine ⟨fun v w h => h.canonicalJson_eq, ?_, ?_⟩
  · intro input keys args hkeys hargs
    exact input.computeBuildIdWith_eq keccak256 sha256 hkeys hargs
  · intro input keys walk hkeys hwalk
    exact input.computeBuildIdWith_eq keccak256 sha256 hkeys fun f =>
      Json.same_ofFields_walk f.wellFormed (hwalk f)

/-- A filter with two arguments. -/
def transferFilter : FilterConfig where
  eventName := "Transfer"
  args := [.mk "from" (.string "0xaa"), .mk "to" .null]
  wellFormed := by
    refine ⟨?_, trivial, fun _ _ h => absurd h List.not_mem_nil, trivial, trivial⟩
    intro key value hm
    cases List.mem_singleton.mp hm
    decide

def filtered (keys : List String) : BuildInput where
  config := localConfig none
    [{ BuildInput.plainContract "A" "[]" with filter := some [transferFilter] }]
  schema := ⟨[]⟩
  handlerKeys := keys

theorem buildId_ignores_order_reversed :
    canonicalJson (.object [.mk "z" (.object [.mk "b" .null, .mk "a" (.bool true)]),
        .mk "m" (.array [.null])]) =
      canonicalJson (.object [.mk "m" (.array [.null]),
        .mk "z" (.object [.mk "a" (.bool true), .mk "b" .null])]) ∧
    (filtered ["A:D", "A:B"]).computeBuildIdWith (fun _ => Hash32.zero)
        (fun f => .object f.args.reverse) id =
      (filtered ["A:B", "A:D"]).computeBuildId (fun _ => Hash32.zero) id ∧
    (filtered ["A:D", "A:B"]).computeBuildIdWith (fun _ => Hash32.zero)
        (fun f => Json.ofFields (f.args.map Member.entry).reverse) id =
      (filtered ["A:B", "A:D"]).computeBuildId (fun _ => Hash32.zero) id := by
  obtain ⟨htext, hargs, hwalk⟩ := buildId_ignores_order (fun _ => Hash32.zero) id
  have hinner : (Json.object [.mk "b" .null, .mk "a" (.bool true)]).SameUpToOrder
      (.object [.mk "a" (.bool true), .mk "b" .null]) :=
    .object (by decide) (.cons "b" .null (.cons "a" (.bool true) .nil)) (List.Perm.swap _ _ _)
  refine ⟨?_, ?_, ?_⟩
  · apply htext
    exact .object (by decide) (.cons "z" hinner (.cons "m" (.array (.cons .null .nil)) .nil))
      (List.Perm.swap _ _ _)
  · apply hargs (filtered ["A:B", "A:D"]) ["A:D", "A:B"]
    · exact List.Perm.swap _ _ _
    · intro f
      exact .object (keysSorted_of_wellFormed f.wellFormed).nodup (.refl f.args f.wellFormed)
        (List.reverse_perm f.args).symm
  · apply hwalk (filtered ["A:B", "A:D"]) ["A:D", "A:B"]
    · exact List.Perm.swap _ _ _
    · intro f
      exact List.reverse_perm _

end ForgeIndex
