import ForgeIndex.Lib.Text

/-!
# Texts by their segments

A text is cut at each occurrence of a separator.  A pattern with one separator occurs where a segment
ends with its first part and the next segment begins with its second part, so that its search and its
replacement are functions of the segments.
-/

namespace Text

/-- The segments behind the first one, each behind a separator. -/
def tail (sep : Char) (gs : List (List Char)) : List Char := gs.flatMap fun g => sep :: g

/-- A text from its segments. -/
def join (sep : Char) (g : List Char) (gs : List (List Char)) : List Char := g ++ tail sep gs

/-- Two neighbouring segments have a property. -/
def AnyPair (P : List Char → List Char → Prop) : List Char → List (List Char) → Prop
  | _, [] => False
  | p, q :: gs => P p q ∨ AnyPair P q gs

/-- The segments of the replacement; the first argument is the part of the segment before that is not
replaced. -/
def replaceSegments (kw x y : List Char) : List Char → List (List Char) → List (List Char)
  | _, [] => []
  | p, q :: gs =>
    if kw <:+ p ∧ x <+: q then
      (y ++ q.drop x.length) :: replaceSegments kw x y (q.drop x.length) gs
    else q :: replaceSegments kw x y q gs

theorem tail_cons (sep : Char) (g : List Char) (gs : List (List Char)) :
    tail sep (g :: gs) = sep :: join sep g gs := rfl

theorem join_cons (sep c : Char) (g : List Char) (gs : List (List Char)) :
    join sep (c :: g) gs = c :: join sep g gs := rfl

theorem join_nil (sep : Char) (gs : List (List Char)) : join sep [] gs = tail sep gs := rfl

theorem join_append (sep : Char) (a g : List Char) (gs : List (List Char)) :
    join sep (a ++ g) gs = a ++ join sep g gs := List.append_assoc _ _ _

theorem exists_join (sep : Char) (s : List Char) :
    ∃ g gs, s = join sep g gs ∧ sep ∉ g ∧ ∀ q ∈ gs, sep ∉ q := by
  induction s with
  | nil => exact ⟨[], [], rfl, by simp, by simp⟩
  | cons c s ih =>
    obtain ⟨g, gs, rfl, hg, hgs⟩ := ih
    by_cases hc : c = sep
    · subst hc
      exact ⟨[], g :: gs, rfl, by simp, by simpa using ⟨hg, hgs⟩⟩
    · exact ⟨c :: g, gs, rfl, by simp [Ne.symm hc, hg], hgs⟩

theorem join_injective {sep : Char} {p : List Char} {gs gs' : List (List Char)}
    (hgs : ∀ q ∈ gs, sep ∉ q) (hgs' : ∀ q ∈ gs', sep ∉ q) (h : join sep p gs = join sep p gs') :
    gs = gs' := by
  have htail : tail sep gs = tail sep gs' := List.append_cancel_left h
  clear h
  have hsplit : ∀ (g : List Char) (rest : List (List Char)), sep ∉ g →
      (join sep g rest).takeWhile (· ≠ sep) = g := by
    intro g rest hg
    unfold join
    have hne : ∀ c ∈ g, decide (c ≠ sep) = true := by
      intro c hc
      rw [decide_eq_true_iff]
      exact fun heq => hg (heq ▸ hc)
    rw [List.takeWhile_append_of_pos hne]
    cases rest with
    | nil => simp [tail]
    | cons q rest => simp [tail_cons]
  induction gs generalizing gs' with
  | nil =>
    cases gs' with
    | nil => rfl
    | cons q' gs' => cases htail
  | cons q gs ih =>
    cases gs' with
    | nil => cases htail
    | cons q' gs' =>
      rw [tail_cons, tail_cons] at htail
      have hjoin := (List.cons.inj htail).2
      have hq : q = q' := by
        rw [← hsplit q gs (hgs q List.mem_cons_self), hjoin,
          hsplit q' gs' (hgs' q' List.mem_cons_self)]
      rw [← hq] at hjoin
      rw [← hq, ih (fun r hr => hgs r (List.mem_cons_of_mem _ hr))
        (fun r hr => hgs' r (List.mem_cons_of_mem _ hr)) (List.append_cancel_left hjoin)]

theorem splitWhitespace_join {p : List Char} {gs : List (List Char)}
    (h : ∀ q ∈ p :: gs, q ≠ [] ∧ ∀ c ∈ q, isWhitespace c = false) :
    splitWhitespace (join ' ' p gs) = p :: gs := by
  unfold splitWhitespace
  induction gs generalizing p with
  | nil =>
    have hp := h p List.mem_cons_self
    have hempty : p.isEmpty = false := by simpa using hp.1
    rw [show join ' ' p [] = p by simp [join, tail], List.splitOnP_eq_singleton hp.2]
    simp [hempty]
  | cons q gs ih =>
    have hp := h p List.mem_cons_self
    have hempty : p.isEmpty = false := by simpa using hp.1
    rw [join, tail_cons, List.splitOnP_append_cons_of_forall_mem hp.2 ' ' (by decide)]
    rw [List.filter_cons_of_pos (by simp [hempty]), ih fun r hr => h r (List.mem_cons_of_mem _ hr)]

theorem AnyPair.mono {P Q : List Char → List Char → Prop} (h : ∀ p q, P p q → Q p q)
    {p : List Char} {gs : List (List Char)} (hany : AnyPair P p gs) : AnyPair Q p gs := by
  induction gs generalizing p with
  | nil => exact hany
  | cons q gs ih => exact hany.imp (h p q) ih

section Pattern

variable {sep : Char} {kw x : List Char}

/-- A text without the separator is a prefix of a text exactly if it is one of the first segment. -/
theorem isPrefix_join_iff (hx : sep ∉ x) {g : List Char} {gs : List (List Char)} :
    x <+: join sep g gs ↔ x <+: g := by
  induction x generalizing g with
  | nil => simp
  | cons c x ih =>
    have hc : c ≠ sep := fun h => hx (by simp [h])
    have hx' : sep ∉ x := fun h => hx (List.mem_cons_of_mem _ h)
    cases g with
    | nil =>
      cases gs with
      | nil => simp [join, tail]
      | cons q gs => simp [join_nil, tail_cons, hc]
    | cons d g => rw [join_cons, List.cons_prefix_cons, List.cons_prefix_cons, ih hx']

theorem pattern_prefix_iff (hkw : sep ∉ kw) (hx : sep ∉ x) {p : List Char}
    {gs : List (List Char)} (hp : sep ∉ p) :
    kw ++ sep :: x <+: join sep p gs ↔ p = kw ∧ ∃ q qs, gs = q :: qs ∧ x <+: q := by
  induction kw generalizing p with
  | nil =>
    cases p with
    | nil =>
      cases gs with
      | nil => simp [join, tail]
      | cons q gs =>
        rw [join_nil, tail_cons, List.nil_append, List.cons_prefix_cons, isPrefix_join_iff hx]
        simp
    | cons d p =>
      have hd : sep ≠ d := fun h => hp (by simp [h])
      simp [join_cons, hd]
  | cons c kw ih =>
    have hc : c ≠ sep := fun h => hkw (by simp [h])
    have hkw' : sep ∉ kw := fun h => hkw (List.mem_cons_of_mem _ h)
    cases p with
    | nil =>
      cases gs with
      | nil => simp [join, tail]
      | cons q gs => simp [join_nil, tail_cons, hc]
    | cons d p =>
      rw [join_cons, List.cons_append, List.cons_prefix_cons,
        ih hkw' fun h => hp (List.mem_cons_of_mem _ h), List.cons.injEq, eq_comm (a := c),
        and_assoc]

theorem pattern_infix_iff (hkw : sep ∉ kw) (hx : sep ∉ x) {p : List Char} {gs : List (List Char)}
    (hp : sep ∉ p) (hgs : ∀ q ∈ gs, sep ∉ q) (hne : kw ≠ []) :
    kw ++ sep :: x <:+: join sep p gs ↔ AnyPair (fun p q => kw <:+ p ∧ x <+: q) p gs := by
  induction gs generalizing p with
  | nil =>
    simp only [AnyPair, iff_false]
    intro h
    have hmem : sep ∈ join sep p [] := h.subset (by simp)
    simp [join, tail] at hmem
    exact hp hmem
  | cons q gs ih =>
    have hq := hgs q List.mem_cons_self
    have hgs' := fun r hr => hgs r (List.mem_cons_of_mem _ hr)
    rw [AnyPair, ← ih hq hgs']
    clear ih
    induction p with
    | nil =>
      have hfirst : ¬kw ++ sep :: x <+: join sep [] (q :: gs) := fun h =>
        hne ((pattern_prefix_iff hkw hx hp).mp h).1.symm
      rw [join_nil, tail_cons] at hfirst ⊢
      rw [List.infix_cons_iff, or_iff_right hfirst, or_iff_right]
      rintro ⟨h, -⟩
      exact hne (List.suffix_nil.mp h)
    | cons c p ih =>
      have hrest : kw ++ sep :: x <:+: join sep p (q :: gs) ↔
          kw <:+ p ∧ x <+: q ∨ kw ++ sep :: x <:+: join sep q gs :=
        ih fun h => hp (List.mem_cons_of_mem _ h)
      rw [join_cons, List.infix_cons_iff, hrest, ← join_cons, pattern_prefix_iff hkw hx hp,
        List.suffix_cons_iff, ← or_assoc]
      constructor
      · rintro ((⟨rfl, q', qs, heq, hxq⟩ | h) | h)
        · cases heq
          exact .inl ⟨.inl rfl, hxq⟩
        · exact .inl ⟨.inr h.1, h.2⟩
        · exact .inr h
      · rintro (⟨rfl | h, hxq⟩ | h)
        · exact .inl (.inl ⟨rfl, q, gs, rfl, hxq⟩)
        · exact .inl (.inr ⟨h, hxq⟩)
        · exact .inr h

end Pattern

section Replace

variable {pat new : List Char}

theorem replaceFrom_skip (k : ℕ) (s : List Char) :
    replaceFrom pat new k s = replaceFrom pat new 0 (s.drop k) := by
  induction k generalizing s with
  | zero => rfl
  | succ k ih =>
    cases s with
    | nil => rfl
    | cons c s => rw [replaceFrom, ih, List.drop_succ_cons]

theorem replaceAll_of_absent {s : List Char} (h : ¬pat <:+: s) : replaceAll pat new s = s := by
  unfold replaceAll
  induction s with
  | nil => rfl
  | cons c s ih =>
    rw [List.infix_cons_iff, not_or] at h
    have hnot : pat.isPrefixOf (c :: s) = false := by
      rw [Bool.eq_false_iff]
      exact fun hpre => h.1 (List.isPrefixOf_iff_prefix.mp hpre)
    rw [replaceFrom, hnot, if_neg Bool.false_ne_true, ih h.2]

variable {sep : Char} {kw x y : List Char}

theorem replaceAll_join (hne : kw ≠ []) (hkw : sep ∉ kw) (hx : sep ∉ x) {p : List Char}
    {gs : List (List Char)} (hp : sep ∉ p) (hgs : ∀ q ∈ gs, sep ∉ q) :
    replaceAll (kw ++ sep :: x) (kw ++ sep :: y) (join sep p gs) =
      join sep p (replaceSegments kw x y p gs) := by
  unfold replaceAll
  induction gs generalizing p with
  | nil =>
    apply replaceAll_of_absent
    rw [pattern_infix_iff hkw hx hp hgs hne]
    exact id
  | cons q gs ih =>
    have hq := hgs q List.mem_cons_self
    have hgs' := fun r hr => hgs r (List.mem_cons_of_mem _ hr)
    induction p with
    | nil =>
      have hfirst : (kw ++ sep :: x).isPrefixOf (sep :: join sep q gs) = false := by
        rw [Bool.eq_false_iff]
        intro h
        have := List.isPrefixOf_iff_prefix.mp h
        rw [← tail_cons, ← join_nil] at this
        exact hne ((pattern_prefix_iff hkw hx hp).mp this).1.symm
      have hsuffix : ¬kw <:+ [] := fun h => hne (List.suffix_nil.mp h)
      rw [join_nil, tail_cons, replaceFrom, hfirst, if_neg Bool.false_ne_true, ih hq hgs',
        replaceSegments, if_neg fun h => hsuffix h.1, join_nil, tail_cons]
    | cons c p ihp =>
      have hp' : sep ∉ p := fun h => hp (List.mem_cons_of_mem _ h)
      rw [join_cons, replaceFrom, ← join_cons]
      by_cases hpre : kw ++ sep :: x <+: join sep (c :: p) (q :: gs)
      · rw [if_pos (List.isPrefixOf_iff_prefix.mpr hpre), replaceFrom_skip]
        obtain ⟨rfl, q', qs, heq, hxq⟩ := (pattern_prefix_iff hkw hx hp).mp hpre
        cases heq
        obtain ⟨rest, rfl⟩ := hxq
        have hdrop : (join sep p ((x ++ rest) :: gs)).drop
            ((c :: p ++ sep :: x).length - 1) = join sep rest gs := by
          have hlen : (c :: p ++ sep :: x).length - 1 = (p ++ sep :: x).length := by simp
          have hsplit : join sep p ((x ++ rest) :: gs) = (p ++ sep :: x) ++ join sep rest gs := by
            simp [join, tail]
          rw [hlen, hsplit, List.drop_left]
        have hrest : sep ∉ rest := fun h => hq (List.mem_append_right _ h)
        rw [hdrop, ih hrest hgs', replaceSegments,
          if_pos ⟨List.suffix_refl _, List.prefix_append _ _⟩, List.drop_left]
        simp [join, tail]
      · rw [if_neg fun h => hpre (List.isPrefixOf_iff_prefix.mp h), ihp hp', join_cons]
        have hsame : replaceSegments kw x y p (q :: gs) =
            replaceSegments kw x y (c :: p) (q :: gs) := by
          rw [replaceSegments, replaceSegments]
          have hiff : (kw <:+ c :: p ∧ x <+: q) ↔ kw <:+ p ∧ x <+: q := by
            rw [List.suffix_cons_iff]
            constructor
            · rintro ⟨rfl | h, hxq⟩
              · exact absurd ((pattern_prefix_iff hkw hx hp).mpr ⟨rfl, q, gs, rfl, hxq⟩) hpre
              · exact ⟨h, hxq⟩
            · exact fun h => ⟨.inr h.1, h.2⟩
          simp only [hiff]
        rw [hsame]

end Replace

theorem forall₂_trans {R : List Char → List Char → Prop}
    (htrans : ∀ a b c, R a b → R b c → R a c) {gs gs' gs'' : List (List Char)}
    (h : List.Forall₂ R gs gs') (h' : List.Forall₂ R gs' gs'') : List.Forall₂ R gs gs'' := by
  induction h generalizing gs'' with
  | nil => exact h'
  | cons hab _ ih =>
    cases h' with
    | cons hbc hrest => exact .cons (htrans _ _ _ hab hbc) (ih hrest)

theorem forall₂_replaceSegments (kw x y p : List Char) (gs : List (List Char)) :
    List.Forall₂ (fun a b => b = a ∨ ∃ r, a = x ++ r ∧ b = y ++ r) gs
      (replaceSegments kw x y p gs) := by
  induction gs generalizing p with
  | nil => exact .nil
  | cons q gs ih =>
    rw [replaceSegments]
    split_ifs with h
    · obtain ⟨-, r, rfl⟩ := h
      rw [List.drop_left]
      exact .cons (.inr ⟨r, rfl, rfl⟩) (ih r)
    · exact .cons (.inl rfl) (ih q)

end Text
