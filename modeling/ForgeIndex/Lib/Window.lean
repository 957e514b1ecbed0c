import Mathlib.Data.List.Chain
import Mathlib.Data.List.DropRight
import Mathlib.Data.List.Pairwise
import Mathlib.Data.List.Infix

/-!
# Queues of bounded length

A queue that drops its oldest element when it is full keeps the last elements that were put in.
Where the elements stand in order, dropping from the back is a filter.
-/

namespace Window

variable {α : Type}

/-- Append an element, and drop the oldest one when the queue is full. -/
def enqueue (cap : ℕ) (q : List α) (x : α) : List α :=
  (if cap ≤ q.length then q.tail else q) ++ [x]

variable {cap : ℕ} {q : List α}

theorem enqueue_eq_rtake (hcap : 0 < cap) (hq : q.length ≤ cap) (x : α) :
    enqueue cap q x = (q ++ [x]).rtake cap := by
  unfold enqueue List.rtake
  rw [List.length_append, List.length_singleton]
  by_cases hfull : cap ≤ q.length
  · have hone : q.length + 1 - cap = 1 := by omega
    have hne : q ≠ [] := List.ne_nil_of_length_pos (by omega)
    rw [if_pos hfull, hone, List.drop_one, List.tail_append_of_ne_nil hne]
  · have hzero : q.length + 1 - cap = 0 := by omega
    rw [if_neg hfull, hzero, List.drop_zero]

theorem length_rtake_le (l : List α) (n : ℕ) : (l.rtake n).length ≤ n := by
  rw [List.rtake, List.length_drop]
  omega

theorem rtake_rtake_append (l xs : List α) (n : ℕ) :
    (l.rtake n ++ xs).rtake n = (l ++ xs).rtake n := by
  unfold List.rtake
  by_cases hn : n ≤ l.length
  · rw [List.length_append, List.length_drop, List.length_append,
      ← List.drop_append_of_le_length (by omega : l.length - n ≤ l.length), List.drop_drop]
    congr 1
    omega
  · have hzero : l.length - n = 0 := by omega
    rw [hzero, List.drop_zero]

theorem foldl_enqueue (hcap : 0 < cap) (xs : List α) (hq : q.length ≤ cap) :
    xs.foldl (enqueue cap) q = (q ++ xs).rtake cap := by
  induction xs generalizing q with
  | nil =>
    have hzero : q.length - cap = 0 := by omega
    rw [List.append_nil, List.rtake, hzero]
    rfl
  | cons x xs ih =>
    show xs.foldl (enqueue cap) (enqueue cap q x) = _
    rw [enqueue_eq_rtake hcap hq, ih (length_rtake_le _ _), rtake_rtake_append,
      List.append_assoc, List.singleton_append]

section Order

variable {r : α → α → Prop}

theorem pairwise_concat_iff [IsTrans α r] {x : α} (hq : q.Pairwise r) :
    (q ++ [x]).Pairwise r ↔ ∀ y ∈ q.getLast?, r y x := by
  rw [List.pairwise_append]
  constructor
  · intro h y hy
    exact h.2.2 y (List.mem_of_getLast? hy) x (List.mem_singleton_self x)
  · intro h
    refine ⟨hq, List.pairwise_singleton r x, ?_⟩
    intro y hy z hz
    rw [List.mem_singleton.mp hz]
    rcases List.eq_nil_or_concat' q with hnil | ⟨front, last, rfl⟩
    · rw [hnil] at hy
      exact absurd hy List.not_mem_nil
    · have hlast : r last x := h last (by simp)
      rcases List.mem_append.mp hy with hfront | hy
      · have hyl : r y last := (List.pairwise_append.mp hq).2.2 y hfront last (by simp)
        exact IsTrans.trans y last x hyl hlast
      · rw [List.mem_singleton.mp hy]
        exact hlast

/-- The order of a queue goes on exactly when the new element comes after the last one. -/
theorem pairwise_enqueue_iff [IsTrans α r] {x : α} (hcap : 2 ≤ cap) (hq : q.Pairwise r) :
    (enqueue cap q x).Pairwise r ↔ ∀ y ∈ q.getLast?, r y x := by
  unfold enqueue
  split_ifs with hfull
  · have hlast : q.tail.getLast? = q.getLast? := by
      rw [List.getLast?_tail, if_neg (by omega)]
    rw [pairwise_concat_iff (hq.sublist (List.tail_sublist q)), hlast]
  · exact pairwise_concat_iff hq

theorem mem_of_mem_enqueue {x y : α} (h : y ∈ enqueue cap q x) : y ∈ q ∨ y = x := by
  unfold enqueue at h
  rcases List.mem_append.mp h with h | h
  · split_ifs at h
    · exact .inl (List.mem_of_mem_tail h)
    · exact .inl h
  · exact .inr (List.mem_singleton.mp h)

end Order

/-- Where no two elements share a key, looking up the key of an element finds it. -/
theorem find?_of_pairwise {β : Type} [DecidableEq β] {key : α → β} {x : α}
    (hq : q.Pairwise fun a b => key a ≠ key b) (hx : x ∈ q) :
    (q.find? fun a => key a = key x) = some x := by
  induction q with
  | nil => exact absurd hx List.not_mem_nil
  | cons a q ih =>
    obtain ⟨ha, hq⟩ := List.pairwise_cons.mp hq
    by_cases hax : a = x
    · rw [hax]
      exact List.find?_cons_of_pos (p := fun a => decide (key a = key x)) (decide_eq_true rfl)
    · have hmem : x ∈ q := (List.mem_cons.mp hx).resolve_left (Ne.symm hax)
      have hkey : ¬decide (key a = key x) = true := fun h => ha x hmem (of_decide_eq_true h)
      rw [List.find?_cons_of_neg (p := fun a => decide (key a = key x)) hkey]
      exact ih hq hmem

theorem eq_range'_of_isChain {l : List ℕ} (h : l.IsChain fun a b => b = a + 1) :
    ∃ lo, l = List.range' lo l.length := by
  induction l with
  | nil => exact ⟨0, rfl⟩
  | cons a l ih =>
    obtain ⟨lo, hlo⟩ := ih h.tail
    refine ⟨a, ?_⟩
    rw [List.length_cons, List.range'_succ]
    congr 1
    cases l with
    | nil => rfl
    | cons b l =>
      have hb : b = lo := (List.cons.inj hlo).1
      have hnext : b = a + 1 := h.rel
      rw [hlo, List.length_range', ← hb, hnext]

/-- Dropping from the back what satisfies an upward closed condition drops all of it. -/
theorem rdropWhile_eq_filter {p : α → Bool} (h : q.Pairwise fun a b => p a = true → p b = true) :
    q.rdropWhile p = q.filter fun a => !p a := by
  induction q using List.reverseRecOn with
  | nil => rfl
  | append_singleton q x ih =>
    obtain ⟨hq, -, hlast⟩ := List.pairwise_append.mp h
    rw [List.rdropWhile_concat, List.filter_append]
    split_ifs with hx
    · rw [ih hq]
      simp [hx]
    · -- the last element does not satisfy `p`, so no element before it does
      have hall : q.filter (fun a => !p a) = q := by
        apply List.filter_eq_self.mpr
        intro a ha
        have hpa : ¬p a = true := fun hpa => hx (hlast a ha x (by simp) hpa)
        simpa using hpa
      rw [hall]
      simp [hx]

/-- Dropping from the back does not change the first element with a property that none of the
dropped ones has. -/
theorem find?_rdropWhile {p f : α → Bool} (h : ∀ a, f a = true → p a = false) :
    (q.rdropWhile p).find? f = q.find? f := by
  induction q using List.reverseRecOn with
  | nil => rfl
  | append_singleton q x ih =>
    rw [List.rdropWhile_concat]
    split_ifs with hx
    · have hfx : ¬f x = true := fun hfx => by
        rw [h x hfx] at hx
        exact absurd hx (by decide)
      rw [ih, List.find?_append, List.find?_singleton, if_neg hfx, Option.or_none]
    · rfl

end Window
