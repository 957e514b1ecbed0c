import ForgeIndex.Api.Sql.Turns

/-!
# One table behind each keyword

In an ordinary query no word but the keywords themselves ends with the spelling of a keyword.  Such
a query gets the schema at its tables exactly if one table stands behind each keyword and no name
that is tried before it is the start of it.
-/

namespace ForgeIndex

open Text

namespace Sql

/-- Only the two keywords end with one of the spellings. -/
def Ordinary (p : List Char) (gs : List (List Char)) : Prop :=
  ∀ q ∈ p :: gs, ∀ kw ∈ prefixKeywords, kw.toList <:+ q → isReference q = true

instance (p : List Char) (gs : List (List Char)) : Decidable (Ordinary p gs) :=
  inferInstanceAs (Decidable (∀ q ∈ p :: gs, ∀ kw ∈ prefixKeywords, _))

/-- The table names of a query in the order in which they first occur. -/
def tableNames (tables : CaseTables) (p : List Char) (gs : List (List Char)) : List (List Char) :=
  (namesBehind tables p gs).reverse.dedup.reverse

/-- The table of a reference is a name of the query, the same one behind each keyword like this, and
no earlier name is the start of it. -/
structure OneTable (tables : CaseTables) (p : List Char) (gs : List (List Char)) (x : Spot) :
    Prop where
  name : x.next ∈ tableNames tables p gs
  only : ∀ y ∈ spots [] p gs, y.word = x.word → y.next = x.next
  first : ∀ n ∈ (tableNames tables p gs).takeWhile (· ≠ x.next), ¬n <+: x.next

section Order

variable {α β : Type*} [DecidableEq α] [DecidableEq β]

theorem takeWhile_ne_append {d ts : List α} {t : α} (h : t ∉ d) :
    (d ++ t :: ts).takeWhile (· ≠ t) = d := by
  have hd : ∀ u ∈ d, decide (u ≠ t) = true := by
    intro u hu
    rw [decide_eq_true_iff]
    exact fun heq => h (heq ▸ hu)
  rw [List.takeWhile_append_of_pos hd, List.takeWhile_cons_of_neg (by simp), List.append_nil]

theorem mem_earlier_iff {names : List α} {kws : List β} (hnames : names.Nodup) (hkws : kws.Nodup)
    {d ts : List (α × β)} {n m : α} {kw : β} (h : names ×ˢ kws = d ++ (n, kw) :: ts) :
    (m, kw) ∈ d ↔ m ∈ names.takeWhile (· ≠ n) := by
  have hmem : (n, kw) ∈ names ×ˢ kws := by
    rw [h]
    simp
  have hnodup : (d ++ (n, kw) :: ts).Nodup := h ▸ hnames.product hkws
  have hd : (n, kw) ∉ d := fun hc =>
    (List.nodup_cons.mp (List.nodup_middle.mp hnodup)).1 (List.mem_append_left _ hc)
  obtain ⟨hn, hkw⟩ := List.mem_product.mp hmem
  obtain ⟨a, b, rfl⟩ := List.append_of_mem hn
  obtain ⟨c, e, rfl⟩ := List.append_of_mem hkw
  have ha : n ∉ a := fun hc =>
    (List.nodup_cons.mp (List.nodup_middle.mp hnames)).1 (List.mem_append_left _ hc)
  have hc : kw ∉ c := fun hc =>
    (List.nodup_cons.mp (List.nodup_middle.mp hkws)).1 (List.mem_append_left _ hc)
  have hsplit : (a ++ n :: b) ×ˢ (c ++ kw :: e) =
      (a ×ˢ (c ++ kw :: e) ++ c.map (Prod.mk n)) ++
        (n, kw) :: (e.map (Prod.mk n) ++ b ×ˢ (c ++ kw :: e)) := by
    show (a ++ n :: b).flatMap (fun x => (c ++ kw :: e).map (Prod.mk x)) = _
    rw [List.flatMap_append, List.flatMap_cons]
    show a ×ˢ (c ++ kw :: e) ++ ((c ++ kw :: e).map (Prod.mk n) ++ b ×ˢ (c ++ kw :: e)) = _
    simp
  have hfront : (n, kw) ∉ a ×ˢ (c ++ kw :: e) ++ c.map (Prod.mk n) := by
    intro hmem
    rcases List.mem_append.mp hmem with hmem | hmem
    · exact ha (List.mem_product.mp hmem).1
    · simp [hc] at hmem
  have hd' : d = a ×ˢ (c ++ kw :: e) ++ c.map (Prod.mk n) := by
    rw [← takeWhile_ne_append hd, ← h, hsplit, takeWhile_ne_append hfront]
  rw [hd', takeWhile_ne_append ha, List.mem_append, List.mem_product]
  simp [hc]

theorem earlier_or_earlier {names : List α} {m n : α} (hm : m ∈ names) (hn : n ∈ names)
    (hne : m ≠ n) :
    m ∈ names.takeWhile (· ≠ n) ∨ n ∈ names.takeWhile (· ≠ m) := by
  induction names with
  | nil => exact absurd hm List.not_mem_nil
  | cons x names ih =>
    by_cases hxm : x = m
    · left
      rw [List.takeWhile_cons_of_pos (by simp [hxm, hne]), hxm]
      exact List.mem_cons_self
    · by_cases hxn : x = n
      · right
        rw [List.takeWhile_cons_of_pos (by simp [hxm]), hxn]
        exact List.mem_cons_self
      · have hm' : m ∈ names := (List.mem_cons.mp hm).resolve_left (Ne.symm hxm)
        have hn' : n ∈ names := (List.mem_cons.mp hn).resolve_left (Ne.symm hxn)
        rw [List.takeWhile_cons_of_pos (by simp [hxn]), List.takeWhile_cons_of_pos (by simp [hxm])]
        exact (ih hm' hn').imp (List.mem_cons_of_mem _) (List.mem_cons_of_mem _)

theorem not_earlier {names : List α} {m n : α} (h : m ∈ names.takeWhile (· ≠ n)) :
    n ∉ names.takeWhile (· ≠ m) := by
  intro h'
  rcases List.prefix_or_prefix_of_prefix (List.takeWhile_prefix (l := names) (· ≠ n))
    (List.takeWhile_prefix (l := names) (· ≠ m)) with hstart | hstart
  · simpa using List.mem_takeWhile_imp (hstart.subset h)
  · simpa using List.mem_takeWhile_imp (hstart.subset h')

end Order

section Split

variable {pgSchema p : List Char} {gs : List (List Char)}

theorem rightTurns_iff {done ts : List Turn} : RightTurns pgSchema p gs done ts ↔
    (∀ d t rest, ts = d ++ t :: rest → RightTurn pgSchema p gs (done ++ d) t) ∧
      ∀ x ∈ spots [] p gs, isReference x.word = true →
        hadTurn (done ++ ts) x.word x.next = true := by
  induction ts generalizing done with
  | nil =>
    rw [List.append_nil]
    exact (and_iff_right fun d t rest h => by simp at h).symm
  | cons t ts ih =>
    rw [RightTurns, ih, ← and_assoc, List.append_assoc, List.singleton_append]
    apply and_congr_left
    intro _
    constructor
    · intro h d u rest hsplit
      cases d with
      | nil =>
        rw [← (List.cons.inj hsplit).1, List.append_nil]
        exact h.1
      | cons v d =>
        obtain ⟨rfl, hrest⟩ := List.cons.inj hsplit
        have := h.2 d u rest hrest
        rwa [List.append_assoc] at this
    · intro h
      refine ⟨?_, fun d u rest hsplit => ?_⟩
      · have := h [] t ts rfl
        rwa [List.append_nil] at this
      · rw [List.append_assoc]
        exact h (t :: d) u rest (by rw [hsplit]; rfl)

end Split

section OrdinaryQuery

variable {tables : CaseTables} {pgSchema p : List Char} {gs : List (List Char)} {done : List Turn}
  {kw : String} {x : Spot}

theorem hadTurn_keyword (href : isReference x.word = true) (hword : x.word = kw.toList) :
    hadTurn done x.word x.next = true ↔ (x.next, kw) ∈ done := by
  rw [hadTurn_iff, and_iff_right href]
  constructor
  · rintro ⟨t, ht, hspelling, hname⟩
    have heq : t = (x.next, kw) := Prod.ext hname (String.toList_inj.mp (hspelling.trans hword))
    exact heq ▸ ht
  · exact fun hmem => ⟨_, hmem, hword.symm, rfl⟩

variable (hplain : PlainQuery p gs) (hordinary : Ordinary p gs)

include hplain in
theorem point_notMem_next (hx : x ∈ spots [] p gs) (href : isReference x.word = true) :
    '.' ∉ x.next := by
  have hidentifier := hplain.identifiers x hx href
  cases hcases : x.next with
  | nil => exact List.not_mem_nil
  | cons c w =>
    rw [hcases] at hidentifier
    unfold isIdentifier at hidentifier
    simp only [Bool.and_eq_true, List.all_eq_true] at hidentifier
    obtain ⟨⟨hstart, hcont⟩, -⟩ := hidentifier
    intro hmem
    rcases List.mem_cons.mp hmem with heq | hmem
    · rw [← heq] at hstart
      exact absurd hstart (by decide)
    · exact absurd (hcont _ hmem) (by decide)

include hplain hordinary

theorem endsWith_iff (hx : x ∈ spots [] p gs) (hkw : kw ∈ prefixKeywords) :
    EndsWith done kw x.before x.word ↔ x.word = kw.toList := by
  constructor
  · intro hends
    have href := hordinary _ (mem_of_mem_spots hx).1 kw hkw hends.1
    obtain ⟨k, hk, hword⟩ := keyword_of_isReference href
    have hsuffix : k.toList <:+ x.word := hword ▸ List.suffix_refl _
    rw [hword, keyword_unique hk hkw hsuffix hends.1]
  · intro hword
    have hsuffix : kw.toList <:+ x.word := hword ▸ List.suffix_refl _
    refine ⟨hsuffix, ?_⟩
    have href := (hplain.spots x hx).upper kw hkw hword
    simp [hadTurn, (hplain.spots x hx).isReference_before href]

theorem blocked_iff (hkw : kw ∈ prefixKeywords) : Blocked pgSchema p gs done kw ↔
    ∃ x ∈ spots [] p gs, x.word = kw.toList ∧ (x.next, kw) ∈ done := by
  unfold Blocked
  apply exists_congr
  intro x
  apply and_congr_right
  intro hx
  rw [endsWith_iff hplain hordinary hx hkw]
  apply and_congr_right
  intro hword
  have href := (hplain.spots x hx).upper kw hkw hword
  rw [hadTurn_keyword href hword]
  apply or_iff_right
  exact fun hstart => point_notMem_next hplain hx href (hstart.subset (by simp))

/-- The turns of an ordinary query are right exactly if one table stands behind each keyword and no
earlier name is the start of it. -/
theorem rightTurns_iff_oneTable : RightTurns pgSchema p gs [] (turns tables p gs) ↔
    ∀ x ∈ spots [] p gs, isReference x.word = true → OneTable tables p gs x := by
  have hnames : (tableNames tables p gs).Nodup := List.nodup_reverse.mpr (List.nodup_dedup _)
  have hkeywords : prefixKeywords.Nodup := by decide
  have hturns : turns tables p gs = tableNames tables p gs ×ˢ prefixKeywords := rfl
  have hnodup : (turns tables p gs).Nodup := hnames.product hkeywords
  rw [rightTurns_iff]
  constructor
  · rintro ⟨hright, hall⟩ x hx href
    obtain ⟨kw, hkw, hword⟩ := keyword_of_isReference href
    have hmem : (x.next, kw) ∈ turns tables p gs := (hadTurn_keyword href hword).mp (hall x hx href)
    -- no table behind the keyword had its turn before
    have hopen : ∀ y ∈ spots [] p gs, y.word = kw.toList → ∀ d rest,
        turns tables p gs = d ++ (y.next, kw) :: rest →
          ∀ z ∈ spots [] p gs, z.word = kw.toList → (z.next, kw) ∉ d := by
      intro y hy hyword d rest hsplit z hz hzword hzd
      have hblocked : Blocked pgSchema p gs ([] ++ d) kw :=
        (blocked_iff hplain hordinary hkw).mpr ⟨z, hz, hzword, hzd⟩
      exact (hright d (y.next, kw) rest hsplit).idle hblocked y hy ⟨hyword, rfl⟩
    have honly : ∀ y ∈ spots [] p gs, y.word = x.word → y.next = x.next := by
      intro y hy hyword
      have hymem : (y.next, kw) ∈ turns tables p gs := by
        apply (hadTurn_keyword (x := y) (by rw [hyword]; exact href) (hyword.trans hword)).mp
        exact hall y hy (by rw [hyword]; exact href)
      by_contra hne
      rcases earlier_or_earlier (List.mem_product.mp hymem).1 (List.mem_product.mp hmem).1 hne with
        hearlier | hearlier
      · obtain ⟨d, rest, hsplit⟩ := List.append_of_mem hmem
        exact hopen x hx hword d rest hsplit y hy (hyword.trans hword)
          ((mem_earlier_iff hnames hkeywords hsplit).mpr hearlier)
      · obtain ⟨d, rest, hsplit⟩ := List.append_of_mem hymem
        exact hopen y hy (hyword.trans hword) d rest hsplit x hx hword
          ((mem_earlier_iff hnames hkeywords hsplit).mpr hearlier)
    refine ⟨(List.mem_product.mp hmem).1, honly, fun n hn hstart => ?_⟩
    have hne : n ≠ x.next := by simpa using List.mem_takeWhile_imp hn
    have hnmem : (n, kw) ∈ turns tables p gs :=
      List.mem_product.mpr ⟨(List.takeWhile_sublist _).subset hn, hkw⟩
    obtain ⟨d, rest, hsplit⟩ := List.append_of_mem hnmem
    have hnot : ¬Blocked pgSchema p gs ([] ++ d) kw := by
      rw [blocked_iff hplain hordinary hkw]
      rintro ⟨y, hy, hyword, hyd⟩
      rw [honly y hy (hyword.trans hword.symm), List.nil_append,
        mem_earlier_iff hnames hkeywords hsplit] at hyd
      exact not_earlier hyd hn
    have hexact := (hright d (n, kw) rest hsplit).exact hnot x hx
      ((endsWith_iff hplain hordinary hx hkw).mpr hword) hstart
    exact hne hexact.2.symm
  · intro hone
    refine ⟨fun d t rest hsplit => ?_, fun x hx href => ?_⟩
    · obtain ⟨n, kw⟩ := t
      have htmem : (n, kw) ∈ turns tables p gs := by
        rw [hsplit]
        simp
      obtain ⟨hn, hkw⟩ := List.mem_product.mp htmem
      have hblocked : Blocked pgSchema p gs ([] ++ d) kw ↔
          ∃ x ∈ spots [] p gs, x.word = kw.toList ∧ (x.next, kw) ∈ d :=
        blocked_iff hplain hordinary hkw
      refine ⟨fun hb x hx hc => ?_, fun hb x hx hends hstart => ?_⟩
      · obtain ⟨y, hy, hyword, hyd⟩ := hblocked.mp hb
        have href := (hplain.spots x hx).upper kw hkw hc.1
        rw [(hone x hx href).only y hy (hyword.trans hc.1.symm), hc.2] at hyd
        rw [hsplit] at hnodup
        exact (List.nodup_cons.mp (List.nodup_middle.mp hnodup)).1 (List.mem_append_left _ hyd)
      · have hword := (endsWith_iff hplain hordinary hx hkw).mp hends
        have href := (hplain.spots x hx).upper kw hkw hword
        refine ⟨hword, ?_⟩
        by_contra hne
        rcases earlier_or_earlier hn (hone x hx href).name (Ne.symm hne) with hearlier | hearlier
        · exact (hone x hx href).first n hearlier hstart
        · apply hb
          rw [hblocked]
          exact ⟨x, hx, hword, (mem_earlier_iff hnames hkeywords hsplit).mpr hearlier⟩
    · obtain ⟨kw, hkw, hword⟩ := keyword_of_isReference href
      rw [hadTurn_keyword href hword]
      exact List.mem_product.mpr ⟨(hone x hx href).name, hkw⟩

end OrdinaryQuery

end Sql

end ForgeIndex
