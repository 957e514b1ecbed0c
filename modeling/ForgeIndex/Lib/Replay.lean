import Mathlib.Data.List.Basic
import Mathlib.Logic.Function.Basic

/-!
# Calls that touch one key each

A machine answers calls one after the other.  When the state is a map and a call reads and writes
the place of its own key only, the calls of one key do not notice the others; nor do they notice
calls that fail without a change.
-/

namespace Replay

variable {σ κ ν α β : Type}

section Machine

variable (step : σ → α → β × σ)

/-- The calls with their answers. -/
def history : σ → List α → List (α × β)
  | _, [] => []
  | s, a :: as => (a, (step s a).1) :: history (step s a).2 as

/-- The state after the calls. -/
def after (s : σ) (as : List α) : σ := as.foldl (fun s a => (step s a).2) s

theorem history_append (s : σ) (as bs : List α) :
    history step s (as ++ bs) = history step s as ++ history step (after step s as) bs := by
  induction as generalizing s with
  | nil => rfl
  | cons a as ih =>
    rw [List.cons_append, history, ih, history, List.cons_append]
    rfl

theorem after_append (s : σ) (as bs : List α) :
    after step s (as ++ bs) = after step (after step s as) bs := List.foldl_append

end Machine

/-- A call reads and writes the place of its key, and a failing one writes nothing. -/
structure Keyed (step : (κ → ν) → α → β × (κ → ν)) (key : α → κ) (failed : β → Bool) : Prop where
  reads : ∀ s s' a, s (key a) = s' (key a) → (step s a).1 = (step s' a).1 ∧
    (step s a).2 (key a) = (step s' a).2 (key a)
  writes : ∀ s a k, k ≠ key a → (step s a).2 k = s k
  silent : ∀ s a, failed (step s a).1 = true → (step s a).2 = s

variable [DecidableEq κ] {step : (κ → ν) → α → β × (κ → ν)} {key : α → κ} {failed : β → Bool}

/-- The calls of one key that did not fail, with their answers. -/
def own (key : α → κ) (failed : β → Bool) (k : κ) (es : List (α × β)) : List (α × β) :=
  es.filter fun e => decide (key e.1 = k) && !failed e.2

/-- The calls of one key that did not fail, made alone, get the same answers and leave the same
value under the key. -/
theorem Keyed.own_alone (h : Keyed step key failed) (k : κ) {s s' : κ → ν} (hk : s k = s' k)
    (as : List α) :
    history step s' ((own key failed k (history step s as)).map Prod.fst) =
      own key failed k (history step s as) ∧
    after step s' ((own key failed k (history step s as)).map Prod.fst) k = after step s as k := by
  induction as generalizing s s' with
  | nil => exact ⟨rfl, hk.symm⟩
  | cons a as ih =>
    -- the call of the list is left out
    have hskip (hstep : (step s a).2 k = s k)
        (hout : (decide (key a = k) && !failed (step s a).1) = false) :
        history step s' ((own key failed k (history step s (a :: as))).map Prod.fst) =
          own key failed k (history step s (a :: as)) ∧
        after step s' ((own key failed k (history step s (a :: as))).map Prod.fst) k =
          after step s (a :: as) k := by
      have hown : own key failed k (history step s (a :: as)) =
          own key failed k (history step (step s a).2 as) := by
        unfold own
        rw [history, List.filter_cons_of_neg (by rw [hout]; simp)]
      rw [hown]
      exact ih (hstep.trans hk)
    by_cases ha : key a = k
    · cases hfailed : failed (step s a).1 with
      | true => exact hskip (by rw [h.silent s a hfailed]) (by rw [hfailed]; simp)
      | false =>
        subst ha
        obtain ⟨hanswer, hstate⟩ := h.reads s s' a hk
        have hown : own key failed (key a) (history step s (a :: as)) =
            (a, (step s a).1) :: own key failed (key a) (history step (step s a).2 as) := by
          unfold own
          rw [history, List.filter_cons_of_pos (by rw [hfailed]; simp)]
        obtain ⟨hhistory, hafter⟩ := ih hstate
        rw [hown, List.map_cons, history, ← hanswer, hhistory]
        exact ⟨rfl, hafter⟩
    · exact hskip (h.writes s a k (Ne.symm ha)) (by simp [ha])

end Replay
