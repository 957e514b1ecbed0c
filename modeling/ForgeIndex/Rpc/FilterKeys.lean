import Mathlib.Data.Finset.Card
import Mathlib.Data.String.Basic
import ForgeIndex.Lib.BigEndian
import ForgeIndex.Lib.Delimited
import ForgeIndex.Rpc.Transparency

/-!
# The key of a filter

The arrays that stand for a filter in the cache list its topic sets without their positions.  Two
filters with the same arrays differ in the positions alone.
-/

namespace ForgeIndex

section Texts

theorem Hash32.display_injective : Function.Injective Hash32.display := by
  intro x y h
  have hread := congrArg Hash32.fromHex h
  rw [Hash32.fromHex_display, Hash32.fromHex_display] at hread
  exact Option.some.inj hread

theorem Address.checksumHex_injective (keccak256 : Bytes → Hash32) :
    Function.Injective (Address.checksumHex keccak256) := by
  intro a b h
  have hread := congrArg Address.fromHex h
  rw [Address.fromHex_checksumHex, Address.fromHex_checksumHex] at hread
  exact Option.some.inj hread

theorem Hash32.length_display (x : Hash32) : x.display.toList.length = 66 := by
  unfold Hash32.display
  rw [String.toList_ofList, List.length_cons, List.length_cons, Hex.length_encode, x.size]

theorem Hash32.readsBack_display (x : Hash32) :
    Delimited.ReadsBack (fun _ => True) (fun _ => True) (fun y : Hash32 => y.display.toList) x := by
  intro y r s _ _ _ h
  have hlen : x.display.toList.length = y.display.toList.length := by
    rw [x.length_display, y.length_display]
  have hparts := List.append_inj h hlen
  exact ⟨Hash32.display_injective (String.toList_injective hparts.1), hparts.2⟩

/-- The joined text of a topic set. -/
def joined (hashes : List Hash32) : String := String.intercalate "," (hashes.map Hash32.display)

theorem joined_injective : Function.Injective joined := by
  intro hs hs' h
  have htext : List.intercalate [','] (hs.map fun x => x.display.toList) =
      List.intercalate [','] (hs'.map fun x => x.display.toList) := by
    have hlist := congrArg String.toList h
    unfold joined at hlist
    rw [String.toList_intercalate, String.toList_intercalate, List.map_map, List.map_map] at hlist
    exact hlist
  have hopen (x : Hash32) (t : List Char) (_ : True) : (x.display.toList ++ t).head? ≠ some ')' := by
    unfold Hash32.display
    rw [String.toList_ofList]
    exact fun hc => absurd (Option.some.inj hc) (by decide)
  have hends : List.intercalate [','] (hs.map fun x => x.display.toList) ++ ')' :: [] =
      List.intercalate [','] (hs'.map fun x => x.display.toList) ++ ')' :: [] := by rw [htext]
  have hsep : ',' ≠ ')' := by decide
  exact (Delimited.intercalate_inj hsep (fun _ => trivial) (fun _ => trivial) hopen
    (fun x _ => ⟨trivial, x.readsBack_display⟩) (fun _ _ => trivial) hends).1

end Texts

namespace LogFilter

/-- The values that a list of topic sets names at a position; none where any value will do. -/
def alternatives (ps : List (Option (List Hash32))) (i : ℕ) : List Hash32 := ps[i]?.join.getD []

/-- The sets that name a value, without their positions. -/
def namedSets (ps : List (Option (List Hash32))) : List (List Hash32) :=
  (ps.filterMap id).filter (· ≠ [])

@[simp] theorem alternatives_tail (ps : List (Option (List Hash32))) (i : ℕ) :
    alternatives ps.tail i = alternatives ps (i + 1) := by
  unfold alternatives
  rw [List.getElem?_tail]

theorem alternatives_take {ps : List (Option (List Hash32))} {n i : ℕ} :
    alternatives (ps.take n) i = if i < n then alternatives ps i else [] := by
  unfold alternatives
  rw [List.getElem?_take]
  split_ifs <;> rfl

theorem topicsMatch_iff (ps : List (Option (List Hash32))) (ts : List Hash32) :
    topicsMatch ps ts = true ↔
      ∀ i, alternatives ps i = [] ∨ ∃ t ∈ ts[i]?, t ∈ alternatives ps i := by
  induction ps, ts using topicsMatch.induct with
  | case1 ts => exact iff_of_true rfl fun i => .inl rfl
  | case2 ps ts ih =>
    rw [topicsMatch, ih]
    constructor
    · intro h i
      cases i with
      | zero => exact .inl rfl
      | succ i =>
        have hi := h i
        rw [List.getElem?_tail] at hi
        exact hi
    · intro h i
      rw [List.getElem?_tail]
      exact h (i + 1)
  | case3 values ps ts ih =>
    rw [topicsMatch, Bool.and_eq_true, ih]
    have hhead : (values.isEmpty || ts.head?.any fun t => decide (t ∈ values)) = true ↔
        alternatives (some values :: ps) 0 = [] ∨
          ∃ t ∈ ts[0]?, t ∈ alternatives (some values :: ps) 0 := by
      rw [Bool.or_eq_true, List.isEmpty_iff, Option.any_eq_true, ← List.head?_eq_getElem?]
      simp only [decide_eq_true_eq]
      rfl
    rw [hhead]
    constructor
    · intro h i
      cases i with
      | zero => exact h.1
      | succ i =>
        have hi := h.2 i
        rw [List.getElem?_tail] at hi
        exact hi
    · intro h
      refine ⟨h 0, fun i => ?_⟩
      rw [List.getElem?_tail]
      exact h (i + 1)

theorem namedSets_eq (ps : List (Option (List Hash32))) :
    namedSets ps =
      if alternatives ps 0 = [] then namedSets ps.tail
      else alternatives ps 0 :: namedSets ps.tail := by
  cases ps with
  | nil => rfl
  | cons p ps =>
    cases p with
    | none => rfl
    | some values =>
      have hcons : (some values :: ps).filterMap id = values :: ps.filterMap id := rfl
      have hzero : alternatives (some values :: ps) 0 = values := rfl
      unfold namedSets
      rw [hcons, hzero, List.filter_cons, List.tail_cons]
      by_cases h : values = []
      · rw [if_neg (by simp [h]), if_pos h]
      · rw [if_pos (by simp [h]), if_neg h]

theorem alternatives_eq_of_namedSets {ps qs : List (Option (List Hash32))} {n : ℕ}
    (hsets : namedSets ps = namedSets qs)
    (hpositions : ∀ i < n, (alternatives ps i = [] ↔ alternatives qs i = [])) :
    ∀ i < n, alternatives ps i = alternatives qs i := by
  induction n generalizing ps qs with
  | zero => exact fun i hi => absurd hi (Nat.not_lt_zero i)
  | succ n ih =>
    rw [namedSets_eq ps, namedSets_eq qs] at hsets
    have hzero := hpositions 0 (Nat.succ_pos n)
    have htails : alternatives ps 0 = alternatives qs 0 ∧
        namedSets ps.tail = namedSets qs.tail := by
      by_cases hp : alternatives ps 0 = []
      · rw [if_pos hp, if_pos (hzero.mp hp)] at hsets
        exact ⟨hp.trans (hzero.mp hp).symm, hsets⟩
      · rw [if_neg hp, if_neg (mt hzero.mpr hp)] at hsets
        exact List.cons.inj hsets
    intro i hi
    cases i with
    | zero => exact htails.1
    | succ i =>
      have hrest := ih htails.2 (fun j hj => by
        rw [alternatives_tail, alternatives_tail]
        exact hpositions (j + 1) (by omega)) i (by omega)
      rwa [alternatives_tail, alternatives_tail] at hrest

end LogFilter

/-- The hash with a number in its last bytes. -/
def hashOfNat (n : ℕ) : Hash32 := ⟨BigEndian.bytes 32 n, BigEndian.length_bytes 32 n⟩

theorem exists_hash_notMem (hs : List Hash32) (hsize : hs.length < 2 ^ 64) : ∃ x, x ∉ hs := by
  by_contra hall
  push Not at hall
  have hinj : Set.InjOn hashOfNat (Finset.range (hs.length + 1)) := by
    intro m hm n hn h
    have hbytes := congrArg (fun x : Hash32 => BigEndian.value x.bytes) h
    have hm := Finset.mem_range.mp hm
    have hn := Finset.mem_range.mp hn
    have hbound : 2 ^ 64 < 256 ^ 32 := by decide
    unfold hashOfNat at hbytes
    dsimp only at hbytes
    rwa [BigEndian.value_bytes_of_lt (by omega), BigEndian.value_bytes_of_lt (by omega)] at hbytes
  have hsub : (Finset.range (hs.length + 1)).image hashOfNat ⊆ hs.toFinset := by
    intro x _
    exact List.mem_toFinset.mpr (hall x)
  have hcard := Finset.card_le_card hsub
  rw [Finset.card_image_of_injOn hinj, Finset.card_range] at hcard
  have hlen := List.toFinset_card_le hs
  omega

section SameKey

variable {f g : LogFilter}

theorem LogFilter.selects_iff (f : LogFilter) (l : Log) : f.selects l = true ↔
    (f.fromBlock ≤ l.blockNumber ∧ l.blockNumber ≤ f.toBlock) ∧
      (f.address = [] ∨ l.address ∈ f.address) ∧
      ∀ i < 4, alternatives f.topics i = [] ∨ ∃ t ∈ l.topics[i]?, t ∈ alternatives f.topics i := by
  unfold selects
  rw [Bool.and_eq_true, Bool.and_eq_true, Bool.and_eq_true, Bool.or_eq_true, topicsMatch_iff,
    List.isEmpty_iff, decide_eq_true_eq, decide_eq_true_eq, decide_eq_true_eq, and_assoc]
  refine and_congr_right fun _ => and_congr_right fun _ => forall_congr' fun i => ?_
  rw [alternatives_take]
  by_cases hi : i < 4
  · rw [if_pos hi]
    exact (imp_iff_right hi).symm
  · rw [if_neg hi]
    exact iff_of_true (.inl rfl) fun h => absurd h hi

/-- A log in the range of a filter, from one of its addresses, with four topics. -/
def probe (f : LogFilter) (topic : ℕ → Hash32) : Log :=
  { firstLogOf f.fromBlock with
    address := f.address.headD Address.zero
    topics := (List.range 4).map topic }

theorem selects_probe (hfrom : f.fromBlock = g.fromBlock) (hto : f.toBlock = g.toBlock)
    (haddress : f.address = g.address) (hle : f.fromBlock ≤ f.toBlock) (topic : ℕ → Hash32) :
    g.selects (probe f topic) = true ↔
      ∀ i < 4, LogFilter.alternatives g.topics i = [] ∨
        topic i ∈ LogFilter.alternatives g.topics i := by
  rw [LogFilter.selects_iff]
  have hrange : g.fromBlock ≤ (probe f topic).blockNumber ∧
      (probe f topic).blockNumber ≤ g.toBlock := by
    rw [← hfrom, ← hto]
    exact ⟨UInt64.le_refl _, hle⟩
  have hmember : g.address = [] ∨ (probe f topic).address ∈ g.address := by
    rw [← haddress]
    unfold probe
    cases f.address with
    | nil => exact .inl rfl
    | cons a as => exact .inr List.mem_cons_self
  rw [and_iff_right hrange, and_iff_right hmember]
  refine forall₂_congr fun i hi => or_congr_right ?_
  have htopic : (probe f topic).topics[i]? = some (topic i) := by
    unfold probe
    rw [List.getElem?_map, List.getElem?_range hi]
    rfl
  rw [htopic]
  exact ⟨fun ⟨t, ht, hmem⟩ => Option.some.inj ht ▸ hmem, fun h => ⟨topic i, rfl, h⟩⟩

/-- A position that is free in one of two filters that select the same logs is free in the other:
a log with a topic outside its values shows the difference. -/
theorem free_of_selects (hfrom : f.fromBlock = g.fromBlock) (hto : f.toBlock = g.toBlock)
    (haddress : f.address = g.address) (hle : f.fromBlock ≤ f.toBlock)
    (hselects : ∀ l, f.selects l = g.selects l) {i : ℕ} (hi : i < 4)
    (hsize : (LogFilter.alternatives f.topics i).length < 2 ^ 64)
    (hfree : LogFilter.alternatives g.topics i = []) :
    LogFilter.alternatives f.topics i = [] := by
  by_contra hnamed
  obtain ⟨x, hx⟩ := exists_hash_notMem _ hsize
  have hg : g.selects (probe f fun j => (LogFilter.alternatives g.topics j).headD x) = true := by
    rw [selects_probe hfrom hto haddress hle]
    intro j _
    cases LogFilter.alternatives g.topics j with
    | nil => exact .inl rfl
    | cons t ts => exact .inr List.mem_cons_self
  rw [← hselects, selects_probe rfl rfl rfl hle] at hg
  have hpos := hg i hi
  rw [hfree] at hpos
  exact hpos.elim hnamed hx

theorem namedSets_eq_of_columns (keccak256 : Bytes → Hash32) (chainId : UInt64)
    (h : (filterColumns keccak256 chainId f).topics = (filterColumns keccak256 chainId g).topics) :
    f.topics.filterMap id = g.topics.filterMap id := by
  have hmap (ps : List (Option (List Hash32))) :
      (ps.filterMap fun t => t.map joined) = (ps.filterMap id).map joined := by
    rw [List.map_filterMap]
    rfl
  apply joined_injective.list_map
  rw [← hmap, ← hmap]
  exact h

theorem length_alternatives_lt {ps : List (Option (List Hash32))} {n : ℕ} (hn : 0 < n)
    (h : ∀ hashes ∈ ps.filterMap id, hashes.length < n) (i : ℕ) :
    (LogFilter.alternatives ps i).length < n := by
  unfold LogFilter.alternatives
  rcases hp : ps[i]? with _ | _ | hashes
  · exact hn
  · exact hn
  · have hmem : some hashes ∈ ps := List.mem_of_getElem? hp
    exact h hashes (List.mem_filterMap.mpr ⟨some hashes, hmem, rfl⟩)

/-- Two filters for one range and with one key select the same logs exactly when the range is empty
or the same of the four positions are free in both.  The sets fit into a `Vec`. -/
theorem same_key_selects_iff (keccak256 : Bytes → Hash32) (chainId : UInt64)
    (hfrom : f.fromBlock = g.fromBlock) (hto : f.toBlock = g.toBlock)
    (haddress : (filterColumns keccak256 chainId f).address =
      (filterColumns keccak256 chainId g).address)
    (htopics : (filterColumns keccak256 chainId f).topics =
      (filterColumns keccak256 chainId g).topics)
    (hsize : ∀ hashes, some hashes ∈ f.topics → hashes.length < 2 ^ 64) :
    (∀ l, f.selects l = g.selects l) ↔
      f.toBlock < f.fromBlock ∨
        ∀ i < 4, (LogFilter.alternatives f.topics i = [] ↔
          LogFilter.alternatives g.topics i = []) := by
  have haddr : f.address = g.address :=
    (Address.checksumHex_injective keccak256).list_map haddress
  have hsets := namedSets_eq_of_columns keccak256 chainId htopics
  have hbound : ∀ hashes ∈ f.topics.filterMap id, hashes.length < 2 ^ 64 := by
    intro hashes hmem
    obtain ⟨p, hp, hid⟩ := List.mem_filterMap.mp hmem
    cases hid
    exact hsize hashes hp
  constructor
  · intro hselects
    by_cases hle : f.fromBlock ≤ f.toBlock
    · right
      intro i hi
      constructor
      · refine free_of_selects hfrom.symm hto.symm haddr.symm (hfrom ▸ hto ▸ hle)
          (fun l => (hselects l).symm) hi (length_alternatives_lt (by decide) ?_ i)
        rw [← hsets]
        exact hbound
      · exact free_of_selects hfrom hto haddr hle hselects hi
          (length_alternatives_lt (by decide) hbound i)
    · exact .inl (UInt64.not_le.mp hle)
  · intro h l
    rw [Bool.eq_iff_iff, LogFilter.selects_iff, LogFilter.selects_iff, ← hfrom, ← hto, ← haddr]
    rcases h with hempty | hpositions
    · -- no block lies in the range
      refine iff_of_false (fun hc => ?_) fun hc => ?_
      · exact UInt64.not_le.mpr hempty (UInt64.le_trans hc.1.1 hc.1.2)
      · exact UInt64.not_le.mpr hempty (UInt64.le_trans hc.1.1 hc.1.2)
    · have hnamed : LogFilter.namedSets f.topics = LogFilter.namedSets g.topics :=
        congrArg (List.filter (· ≠ [])) hsets
      have hsame := LogFilter.alternatives_eq_of_namedSets hnamed hpositions
      refine and_congr_right fun _ => and_congr_right fun _ => forall₂_congr fun i hi => ?_
      rw [hsame i hi]

end SameKey

/-- The filters that ask for the hash zero as first and as second topic. -/
def firstTopicFilter : LogFilter := ⟨[], [some [Hash32.zero], none], 0, 10⟩

def secondTopicFilter : LogFilter := ⟨[], [none, some [Hash32.zero]], 0, 10⟩

/-- A free position at the end makes no difference. -/
theorem same_key_selects_iff_trailing :
    firstTopicFilter.selects = (⟨[], [some [Hash32.zero]], 0, 10⟩ : LogFilter).selects := by
  funext l
  refine (same_key_selects_iff keccakOfZeros 1 rfl rfl rfl rfl ?_).mpr (.inr ?_) l
  · intro hashes hmem
    rcases List.mem_cons.mp hmem with h | h
    · cases h
      decide
    · exact absurd h (by simp)
  · intro i hi
    match i, hi with
    | 0, _ => exact Iff.rfl
    | 1, _ => exact Iff.rfl
    | 2, _ => exact Iff.rfl
    | 3, _ => exact Iff.rfl

/-- Filters with one key and different logs. -/
theorem same_key_different_logs :
    ¬∀ (f g : LogFilter), f.fromBlock = g.fromBlock → f.toBlock = g.toBlock →
      (filterColumns keccakOfZeros 1 f).address = (filterColumns keccakOfZeros 1 g).address →
      (filterColumns keccakOfZeros 1 f).topics = (filterColumns keccakOfZeros 1 g).topics →
        ∀ l, f.selects l = g.selects l := by
  intro h
  have hsame := h firstTopicFilter secondTopicFilter rfl rfl rfl rfl
    { firstLogOf 3 with topics := [Hash32.zero] }
  revert hsame
  decide +kernel

end ForgeIndex
