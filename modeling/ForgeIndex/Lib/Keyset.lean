import Mathlib.Data.List.Sort

/-!
# Keyset pagination

A list in the order of a key that no two elements share, and a client that reads it page by page,
each page behind the last element of the one before.
-/

namespace Keyset

section Ordered

variable {α K : Type} [LinearOrder K] {key : α → K}

/-- The list in the order of the key. -/
def ordered (key : α → K) (l : List α) : List α := l.insertionSort fun a b => key a ≤ key b

theorem perm_ordered (key : α → K) (l : List α) : (ordered key l).Perm l :=
  List.perm_insertionSort _ l

theorem length_ordered (key : α → K) (l : List α) : (ordered key l).length = l.length :=
  (perm_ordered key l).length_eq

theorem pairwise_ordered {l : List α} (h : (l.map key).Nodup) :
    (ordered key l).Pairwise fun a b => key a < key b := by
  have hle : (ordered key l).Pairwise fun a b => key a ≤ key b := by
    have htotal : Std.Total fun a b : α => key a ≤ key b := ⟨fun a b => le_total (key a) (key b)⟩
    have htrans : IsTrans α fun a b => key a ≤ key b := ⟨fun _ _ _ => le_trans⟩
    exact List.pairwise_insertionSort _ l
  have hne : (ordered key l).Pairwise fun a b => key a ≠ key b := by
    have hnodup : ((ordered key l).map key).Nodup := ((perm_ordered key l).map key).nodup_iff.mpr h
    exact List.pairwise_map.mp hnodup
  exact (hle.and hne).imp fun hab => lt_of_le_of_ne hab.1 hab.2

theorem eq_of_perm {l l' : List α} (h : l.Perm l') (hl : l.Pairwise fun a b => key a < key b)
    (hl' : l'.Pairwise fun a b => key a < key b) : l = l' := by
  apply List.Perm.eq_of_pairwise _ hl hl' h
  intro a b _ _ hab hba
  exact absurd hab hba.asymm

theorem ordered_filter {l : List α} (h : (l.map key).Nodup) (p : α → Bool) :
    ordered key (l.filter p) = (ordered key l).filter p := by
  have hfilter : ((l.filter p).map key).Nodup := h.sublist (List.filter_sublist.map key)
  apply eq_of_perm _ (pairwise_ordered hfilter) ((pairwise_ordered h).filter p)
  exact (perm_ordered key _).trans ((perm_ordered key l).filter p).symm

theorem filter_after {pre post : List α} {x : α}
    (h : (pre ++ x :: post).Pairwise fun a b => key a < key b) :
    (pre ++ x :: post).filter (fun a => decide (key x < key a)) = post := by
  obtain ⟨-, hpost, hpre⟩ := List.pairwise_append.mp h
  have hbefore : pre.filter (fun a => decide (key x < key a)) = [] := by
    apply List.filter_eq_nil_iff.mpr
    intro a ha
    have hlt : key a < key x := hpre a ha x List.mem_cons_self
    simpa using hlt.le
  have hbehind : post.filter (fun a => decide (key x < key a)) = post := by
    apply List.filter_eq_self.mpr
    intro a ha
    exact decide_eq_true ((List.pairwise_cons.mp hpost).1 a ha)
  rw [List.filter_append, hbefore, List.nil_append, List.filter_cons,
    if_neg (by simp), hbehind]

theorem filter_before {pre post : List α} {x : α}
    (h : (pre ++ x :: post).Pairwise fun a b => key a < key b) :
    (pre ++ x :: post).filter (fun a => decide (key a < key x)) = pre := by
  obtain ⟨-, hpost, hpre⟩ := List.pairwise_append.mp h
  have hbefore : pre.filter (fun a => decide (key a < key x)) = pre := by
    apply List.filter_eq_self.mpr
    intro a ha
    exact decide_eq_true (hpre a ha x List.mem_cons_self)
  have hbehind : post.filter (fun a => decide (key a < key x)) = [] := by
    apply List.filter_eq_nil_iff.mpr
    intro a ha
    have hlt : key x < key a := (List.pairwise_cons.mp hpost).1 a ha
    simpa using hlt.le
  rw [List.filter_append, hbefore, List.filter_cons, if_neg (by simp), hbehind, List.append_nil]

end Ordered

section Pages

variable {γ α ε : Type}

structure Page (γ α : Type) where
  items : List α
  next : Option γ
  more : Bool

/-- The pages that a client reads from a cursor on, while there are more; `none` when a call fails
or the number of calls does not suffice. -/
def follow (fetch : Option γ → Except ε (Page γ α)) : ℕ → Option γ → Option (List (Page γ α))
  | 0, _ => none
  | n + 1, cursor =>
    match fetch cursor with
    | .error _ => none
    | .ok page =>
      if page.more then (follow fetch n page.next).map (page :: ·) else some [page]

/-- The client comes to an end, and this is what it has read. -/
def Ends (fetch : Option γ → Except ε (Page γ α)) (cursor : Option γ) (l : List α) : Prop :=
  ∃ fuel pages, follow fetch fuel cursor = some pages ∧ pages.flatMap Page.items = l

variable {fetch : Option γ → Except ε (Page γ α)}

theorem follow_mono {n m : ℕ} (h : n ≤ m) {cursor : Option γ} {pages : List (Page γ α)}
    (hn : follow fetch n cursor = some pages) : follow fetch m cursor = some pages := by
  induction n generalizing m cursor pages with
  | zero => cases hn
  | succ n ih =>
    obtain ⟨m, rfl⟩ : ∃ k, m = k + 1 := ⟨m - 1, by omega⟩
    unfold follow at hn ⊢
    cases hfetch : fetch cursor with
    | error e =>
      rw [hfetch] at hn
      cases hn
    | ok page =>
      rw [hfetch] at hn
      dsimp only at hn ⊢
      split_ifs at hn ⊢ with hmore
      · obtain ⟨rest, hrest, hpages⟩ := Option.map_eq_some_iff.mp hn
        rw [ih (by omega) hrest, ← hpages]
        rfl
      · exact hn

theorem Ends.unique {cursor : Option γ} {l l' : List α} (h : Ends fetch cursor l)
    (h' : Ends fetch cursor l') : l = l' := by
  obtain ⟨n, pages, hn, hl⟩ := h
  obtain ⟨m, pages', hm, hl'⟩ := h'
  have hleft := follow_mono (Nat.le_max_left n m) hn
  rw [follow_mono (Nat.le_max_right n m) hm] at hleft
  rw [← hl, ← hl', Option.some.inj hleft]

theorem Ends.first {cursor : Option γ} {l : List α} (h : Ends fetch cursor l) :
    ∃ page, fetch cursor = .ok page := by
  obtain ⟨n, pages, hn, -⟩ := h
  cases n with
  | zero => cases hn
  | succ n =>
    unfold follow at hn
    cases hfetch : fetch cursor with
    | error e =>
      rw [hfetch] at hn
      cases hn
    | ok page => exact ⟨page, rfl⟩

theorem ends_last {cursor : Option γ} {page : Page γ α} (h : fetch cursor = .ok page)
    (hmore : page.more = false) : Ends fetch cursor page.items := by
  refine ⟨1, [page], ?_, by simp⟩
  unfold follow
  rw [h]
  dsimp only
  rw [hmore]
  rfl

theorem ends_next {cursor : Option γ} {page : Page γ α} (h : fetch cursor = .ok page)
    (hmore : page.more = true) {l : List α} (hnext : Ends fetch page.next l) :
    Ends fetch cursor (page.items ++ l) := by
  obtain ⟨n, pages, hn, hl⟩ := hnext
  refine ⟨n + 1, page :: pages, ?_, by rw [List.flatMap_cons, hl]⟩
  unfold follow
  rw [h]
  dsimp only
  rw [if_pos hmore, hn]
  rfl

/-- A server that gives the first elements of what remains behind the cursor, and with them the
cursor of the last one, has been read whole in the end. -/
theorem ends_of_remains {size : ℕ} (hsize : 0 < size) {Remains : Option γ → List α → Prop}
    (hfetch : ∀ cursor l, Remains cursor l → ∃ page, fetch cursor = .ok page ∧
      page.items = l.take size ∧ page.more = decide (size < l.length) ∧
      (size < l.length → Remains page.next (l.drop size)))
    {cursor : Option γ} {l : List α} (h : Remains cursor l) : Ends fetch cursor l := by
  -- by the number of elements that remain: each page that is not the last one takes some
  induction hn : l.length using Nat.strong_induction_on generalizing cursor l with
  | _ n ih =>
    obtain ⟨page, hpage, hitems, hmore, hnext⟩ := hfetch cursor l h
    by_cases hlong : size < l.length
    · have hshort : (l.drop size).length < n := by
        rw [List.length_drop]
        omega
      have hrest := ih _ hshort (hnext hlong) rfl
      have hends := ends_next hpage (by rw [hmore, decide_eq_true hlong]) hrest
      rw [hitems, List.take_append_drop] at hends
      exact hends
    · have hends := ends_last hpage (by rw [hmore, decide_eq_false hlong])
      rw [hitems, List.take_of_length_le (by omega)] at hends
      exact hends

end Pages

end Keyset
