import Mathlib.Algebra.Order.Field.Basic
import Mathlib.Tactic.Linarith
import Mathlib.Tactic.Ring

/-!
# A bucket that is refilled

A level that grows at a rate up to a capacity and loses one with each request that is accepted.
What is accepted in a window is paid from the level at its beginning and from what flows in until
its end.
-/

namespace Refill

variable {𝕜 : Type} [Field 𝕜] [LinearOrder 𝕜]

/-- The level at the time of the last request. -/
structure Level (𝕜 : Type) where
  level : 𝕜
  since : 𝕜

section Run

variable (capacity rate : 𝕜)

/-- The level at a later time. -/
def fill (b : Level 𝕜) (t : 𝕜) : 𝕜 := min (b.level + max (t - b.since) 0 * rate) capacity

/-- A request at a time: the answer and what is left. -/
def take (b : Level 𝕜) (t : 𝕜) : Bool × Level 𝕜 :=
  if 1 ≤ fill capacity rate b t then (true, ⟨fill capacity rate b t - 1, t⟩)
  else (false, ⟨fill capacity rate b t, t⟩)

/-- The times of the accepted requests. -/
def accepted (b : Level 𝕜) : List 𝕜 → List 𝕜
  | [] => []
  | t :: ts =>
    (if (take capacity rate b t).1 then [t] else []) ++ accepted (take capacity rate b t).2 ts

/-- How many requests of a run are accepted at times with a property. -/
def count (p : 𝕜 → Bool) (b : Level 𝕜) (ts : List 𝕜) : ℕ :=
  ((accepted capacity rate b ts).filter p).length

end Run

/-- The level is one that the bucket can have. -/
structure Level.Within (capacity : 𝕜) (b : Level 𝕜) : Prop where
  nonneg : 0 ≤ b.level
  le_capacity : b.level ≤ capacity

/-- Requests at times that do not go back. -/
def Ahead (b : Level 𝕜) (ts : List 𝕜) : Prop := (b.since :: ts).Pairwise (· ≤ ·)

variable {capacity rate : 𝕜} {b : Level 𝕜}

theorem take_accepts {t : 𝕜} (h : 1 ≤ fill capacity rate b t) :
    take capacity rate b t = (true, ⟨fill capacity rate b t - 1, t⟩) := if_pos h

theorem take_refuses {t : 𝕜} (h : ¬1 ≤ fill capacity rate b t) :
    take capacity rate b t = (false, ⟨fill capacity rate b t, t⟩) := if_neg h

theorem take_since (t : 𝕜) : (take capacity rate b t).2.since = t := by
  by_cases h : 1 ≤ fill capacity rate b t
  · rw [take_accepts h]
  · rw [take_refuses h]

theorem take_level (b : Level 𝕜) (t : 𝕜) :
    (if (take capacity rate b t).1 then (1 : 𝕜) else 0) + (take capacity rate b t).2.level =
      fill capacity rate b t := by
  by_cases h : 1 ≤ fill capacity rate b t
  · rw [take_accepts h, if_pos rfl]
    exact add_sub_cancel _ _
  · rw [take_refuses h, if_neg Bool.false_ne_true]
    exact zero_add _

theorem fill_le_capacity (t : 𝕜) : fill capacity rate b t ≤ capacity := min_le_right _ _

omit [Field 𝕜] in
theorem Ahead.head {t : 𝕜} {ts : List 𝕜} (h : Ahead b (t :: ts)) : b.since ≤ t :=
  (List.pairwise_cons.mp h).1 t List.mem_cons_self

theorem Ahead.tail {t : 𝕜} {ts : List 𝕜} (h : Ahead b (t :: ts)) :
    Ahead (take capacity rate b t).2 ts := by
  unfold Ahead
  rw [take_since]
  exact (List.pairwise_cons.mp h).2

omit [Field 𝕜] in
theorem Ahead.le {t : 𝕜} {ts : List 𝕜} (h : Ahead b (t :: ts)) : ∀ u ∈ t :: ts, t ≤ u := by
  intro u hu
  rcases List.mem_cons.mp hu with rfl | hu
  · exact le_refl u
  · exact (List.pairwise_cons.mp (List.pairwise_cons.mp h).2).1 u hu

theorem count_cons (p : 𝕜 → Bool) (t : 𝕜) (ts : List 𝕜) :
    count capacity rate p b (t :: ts) =
      (if (take capacity rate b t).1 && p t then 1 else 0) +
        count capacity rate p (take capacity rate b t).2 ts := by
  unfold count
  rw [accepted, List.filter_append, List.length_append]
  cases (take capacity rate b t).1 <;> cases hp : p t <;> simp [hp]

theorem count_eq_zero {p : 𝕜 → Bool} {ts : List 𝕜} (h : ∀ t ∈ ts, p t = false) :
    count capacity rate p b ts = 0 := by
  induction ts generalizing b with
  | nil => rfl
  | cons t ts ih =>
    rw [count_cons, ih fun u hu => h u (List.mem_cons_of_mem t hu), h t List.mem_cons_self,
      Bool.and_false, if_neg Bool.false_ne_true]

theorem count_congr {p q : 𝕜 → Bool} {ts : List 𝕜} (h : ∀ t ∈ ts, p t = q t) :
    count capacity rate p b ts = count capacity rate q b ts := by
  induction ts generalizing b with
  | nil => rfl
  | cons t ts ih =>
    rw [count_cons, count_cons, ih fun u hu => h u (List.mem_cons_of_mem t hu),
      h t List.mem_cons_self]

/-- The requests up to a time. -/
def before (stop t : 𝕜) : Bool := decide (t ≤ stop)

theorem count_late {stop t : 𝕜} {ts : List 𝕜} (hts : Ahead b (t :: ts)) (ht : ¬t ≤ stop) :
    count capacity rate (before stop) b (t :: ts) = 0 := by
  apply count_eq_zero
  intro u hu
  exact decide_eq_false fun hle => ht ((hts.le u hu).trans hle)

variable [IsStrictOrderedRing 𝕜]

theorem fill_le {t : 𝕜} (ht : b.since ≤ t) :
    fill capacity rate b t ≤ b.level + rate * (t - b.since) := by
  unfold fill
  rw [max_eq_left (sub_nonneg.mpr ht), mul_comm]
  exact min_le_left _ _

theorem fill_nonneg (hb : b.Within capacity) (hrate : 0 ≤ rate) (t : 𝕜) :
    0 ≤ fill capacity rate b t := by
  have hflow : 0 ≤ max (t - b.since) 0 * rate := mul_nonneg (le_max_right _ _) hrate
  exact le_min (add_nonneg hb.nonneg hflow) (hb.nonneg.trans hb.le_capacity)

theorem take_within (hb : b.Within capacity) (hrate : 0 ≤ rate) (t : 𝕜) :
    (take capacity rate b t).2.Within capacity := by
  have hle : fill capacity rate b t ≤ capacity := fill_le_capacity t
  by_cases h : 1 ≤ fill capacity rate b t
  · rw [take_accepts h]
    exact ⟨sub_nonneg.mpr h, (sub_le_self _ zero_le_one).trans hle⟩
  · rw [take_refuses h]
    exact ⟨fill_nonneg hb hrate t, hle⟩

theorem count_first {stop t : 𝕜} {ts : List 𝕜} (ht : t ≤ stop)
    (hrest : (count capacity rate (before stop) (take capacity rate b t).2 ts : 𝕜) ≤
      (take capacity rate b t).2.level + rate * (stop - t)) :
    (count capacity rate (before stop) b (t :: ts) : 𝕜) ≤
      fill capacity rate b t + rate * (stop - t) := by
  have hbefore : before stop t = true := decide_eq_true ht
  have hcount : (count capacity rate (before stop) b (t :: ts) : 𝕜) =
      (if (take capacity rate b t).1 then (1 : 𝕜) else 0) +
        count capacity rate (before stop) (take capacity rate b t).2 ts := by
    rw [count_cons, hbefore, Bool.and_true]
    split_ifs <;> simp
  rw [hcount, ← take_level b t, add_assoc]
  exact add_le_add_right hrest _

theorem count_until (hb : b.Within capacity) (hrate : 0 ≤ rate) {stop : 𝕜} {ts : List 𝕜}
    (hts : Ahead b ts) (hstop : b.since ≤ stop) :
    (count capacity rate (before stop) b ts : 𝕜) ≤ b.level + rate * (stop - b.since) := by
  have hpos {b : Level 𝕜} (hb : b.Within capacity) (hstop : b.since ≤ stop) :
      0 ≤ b.level + rate * (stop - b.since) :=
    add_nonneg hb.nonneg (mul_nonneg hrate (sub_nonneg.mpr hstop))
  induction ts generalizing b with
  | nil => simpa [count, accepted] using hpos hb hstop
  | cons t ts ih =>
    by_cases ht : t ≤ stop
    · have hsince : (take capacity rate b t).2.since ≤ stop := by
        rw [take_since]
        exact ht
      have hrest := ih (take_within hb hrate t) hts.tail hsince
      rw [take_since] at hrest
      calc (count capacity rate (before stop) b (t :: ts) : 𝕜)
          ≤ fill capacity rate b t + rate * (stop - t) := count_first ht hrest
        _ ≤ b.level + rate * (t - b.since) + rate * (stop - t) :=
          add_le_add_left (fill_le hts.head) _
        _ = b.level + rate * (stop - b.since) := by ring
    · rw [count_late hts ht, Nat.cast_zero]
      exact hpos hb hstop

theorem count_window (hb : b.Within capacity) (hrate : 0 ≤ rate) {start stop : 𝕜}
    (hwindow : start ≤ stop) {ts : List 𝕜} (hts : Ahead b ts) :
    (count capacity rate (fun t => decide (start ≤ t) && before stop t) b ts : 𝕜) ≤
      capacity + rate * (stop - start) := by
  have hpos : 0 ≤ capacity + rate * (stop - start) :=
    add_nonneg (hb.nonneg.trans hb.le_capacity) (mul_nonneg hrate (sub_nonneg.mpr hwindow))
  induction ts generalizing b with
  | nil => simpa [count, accepted] using hpos
  | cons t ts ih =>
    by_cases hstart : start ≤ t
    · -- the window has begun
      have hcongr : count capacity rate (fun t => decide (start ≤ t) && before stop t) b (t :: ts) =
          count capacity rate (before stop) b (t :: ts) := by
        apply count_congr
        intro u hu
        rw [decide_eq_true (hstart.trans (hts.le u hu)), Bool.true_and]
      rw [hcongr]
      by_cases ht : t ≤ stop
      · have hsince : (take capacity rate b t).2.since ≤ stop := by
          rw [take_since]
          exact ht
        have hrest := count_until (take_within hb hrate t) hrate hts.tail hsince
        rw [take_since] at hrest
        have hflow : rate * (stop - t) ≤ rate * (stop - start) :=
          mul_le_mul_of_nonneg_left (sub_le_sub_left hstart stop) hrate
        exact (count_first ht hrest).trans (add_le_add (fill_le_capacity t) hflow)
      · rw [count_late hts ht, Nat.cast_zero]
        exact hpos
    · have hskip : (if (take capacity rate b t).1 && (decide (start ≤ t) && before stop t)
          then 1 else 0) = 0 := by
        rw [decide_eq_false hstart, Bool.false_and, Bool.and_false]
        rfl
      rw [count_cons, hskip, zero_add]
      exact ih (take_within hb hrate t) hts.tail

section Steps

variable (capacity rate : 𝕜)

/-- The bucket, filled until a time. -/
def refill (b : Level 𝕜) (t : 𝕜) : Level 𝕜 := ⟨fill capacity rate b t, t⟩

/-- What was granted from a time on is paid, together with what is left, from a full bucket and what
has flowed in. -/
def Paid (start : 𝕜) (granted : ℕ) (b : Level 𝕜) : Prop :=
  (granted : 𝕜) + b.level ≤ capacity + rate * max (b.since - start) 0

end Steps

omit [IsStrictOrderedRing 𝕜] in
@[simp] theorem refill_since (t : 𝕜) : (refill capacity rate b t).since = t := rfl

omit [IsStrictOrderedRing 𝕜] in
@[simp] theorem refill_level (t : 𝕜) :
    (refill capacity rate b t).level = fill capacity rate b t := rfl

theorem one_le_fill (hb : b.Within capacity) (hcapacity : 1 ≤ capacity) (hrate : 1 ≤ rate) {t : 𝕜}
    (ht : b.since + 1 ≤ t) : 1 ≤ fill capacity rate b t := by
  have helapsed : 1 ≤ max (t - b.since) 0 := le_trans (by linarith) (le_max_left _ _)
  apply le_min _ hcapacity
  calc (1 : 𝕜) ≤ max (t - b.since) 0 * rate :=
        one_le_mul_of_one_le_of_one_le helapsed hrate
    _ ≤ b.level + max (t - b.since) 0 * rate := le_add_of_nonneg_left hb.nonneg

theorem refill_within (hb : b.Within capacity) (hrate : 0 ≤ rate) (t : 𝕜) :
    (refill capacity rate b t).Within capacity :=
  ⟨fill_nonneg hb hrate t, fill_le_capacity t⟩

theorem fill_mono (hrate : 0 ≤ rate) {t u : 𝕜} (h : t ≤ u) :
    fill capacity rate b t ≤ fill capacity rate b u := by
  have hflow : max (t - b.since) 0 ≤ max (u - b.since) 0 :=
    max_le_max (sub_le_sub_right h b.since) (le_refl 0)
  exact min_le_min (add_le_add_right (mul_le_mul_of_nonneg_right hflow hrate) _) (le_refl _)

theorem fill_le_fill_refill (hrate : 0 ≤ rate) {t : 𝕜} (ht : b.since ≤ t) (u : 𝕜) :
    fill capacity rate b u ≤ fill capacity rate (refill capacity rate b t) u := by
  rcases le_total u t with hut | htu
  · -- the filling was later: the level then is still there
    have hflow : 0 ≤ max (u - t) 0 * rate := mul_nonneg (le_max_right _ _) hrate
    have hthen : fill capacity rate b u ≤ fill capacity rate b t := fill_mono hrate hut
    exact le_min (hthen.trans (le_add_of_nonneg_right hflow)) (fill_le_capacity u)
  · -- what flows in until `u` flows in partly before and partly after
    have hflow : 0 ≤ (u - t) * rate := mul_nonneg (sub_nonneg.mpr htu) hrate
    apply le_min _ (fill_le_capacity u)
    show fill capacity rate b u ≤ fill capacity rate b t + max (u - t) 0 * rate
    rw [max_eq_left (sub_nonneg.mpr htu)]
    unfold fill
    rw [max_eq_left (sub_nonneg.mpr (ht.trans htu)), max_eq_left (sub_nonneg.mpr ht),
      min_add]
    apply min_le_min
    · apply le_of_eq
      ring
    · exact le_add_of_nonneg_right hflow

theorem paid_none (hb : b.Within capacity) (hrate : 0 ≤ rate) (start : 𝕜) :
    Paid capacity rate start 0 b := by
  have hflow : 0 ≤ rate * max (b.since - start) 0 := mul_nonneg hrate (le_max_right _ _)
  unfold Paid
  rw [Nat.cast_zero, zero_add]
  exact hb.le_capacity.trans (le_add_of_nonneg_right hflow)

namespace Paid

variable {start : 𝕜} {granted : ℕ}

theorem refill (h : Paid capacity rate start granted b) (hrate : 0 ≤ rate) {t : 𝕜}
    (ht : b.since ≤ t) (hnone : b.since < start → granted = 0) :
    Paid capacity rate start granted (refill capacity rate b t) := by
  unfold Paid at h ⊢
  rw [refill_since, refill_level]
  by_cases hstart : b.since < start
  · have hflow : 0 ≤ rate * max (t - start) 0 := mul_nonneg hrate (le_max_right _ _)
    rw [hnone hstart, Nat.cast_zero, zero_add]
    exact (fill_le_capacity t).trans (le_add_of_nonneg_right hflow)
  · have hsince : start ≤ b.since := le_of_not_gt hstart
    rw [max_eq_left (sub_nonneg.mpr hsince)] at h
    rw [max_eq_left (sub_nonneg.mpr (hsince.trans ht))]
    calc (granted : 𝕜) + fill capacity rate b t
        ≤ granted + (b.level + rate * (t - b.since)) := add_le_add_right (fill_le ht) _
      _ = granted + b.level + rate * (t - b.since) := by ring
      _ ≤ capacity + rate * (b.since - start) + rate * (t - b.since) := add_le_add_left h _
      _ = capacity + rate * (t - start) := by ring

omit [IsStrictOrderedRing 𝕜] in
theorem grant (h : Paid capacity rate start granted b) :
    Paid capacity rate start (granted + 1) ⟨b.level - 1, b.since⟩ := by
  unfold Paid at h ⊢
  have hsum : ((granted + 1 : ℕ) : 𝕜) + (b.level - 1) = granted + b.level := by
    push_cast
    ring
  rw [hsum]
  exact h

theorem early (h : Paid capacity rate start granted b) :
    Paid capacity rate start granted ⟨b.level - 1, b.since⟩ := by
  unfold Paid at h ⊢
  have hless : (granted : 𝕜) + (b.level - 1) ≤ granted + b.level :=
    add_le_add_right (sub_le_self _ zero_le_one) _
  exact hless.trans h

theorem le (h : Paid capacity rate start granted b) (hb : b.Within capacity)
    (hstart : start ≤ b.since) : (granted : 𝕜) ≤ capacity + rate * (b.since - start) := by
  unfold Paid at h
  rw [max_eq_left (sub_nonneg.mpr hstart)] at h
  exact (le_add_of_nonneg_right hb.nonneg).trans h

end Paid

end Refill
