import Mathlib.Data.List.Infix

/-!
# Properties of the steps of a run

A run is the fold of a step function over a list of inputs.  `Along` says of a run that each of its
steps has a property, given the state before the step and the input.
-/

section Along

variable {σ α : Type} (step : σ → α → σ)

/-- Every step of the run from `s` has the property. -/
def Along (P : σ → α → Prop) : σ → List α → Prop
  | _, [] => True
  | s, a :: as => P s a ∧ Along P (step s a) as

instance decidableAlong (P : σ → α → Prop) [∀ s a, Decidable (P s a)] :
    (s : σ) → (as : List α) → Decidable (Along step P s as)
  | _, [] => inferInstanceAs (Decidable True)
  | s, a :: as =>
    have := decidableAlong P (step s a) as
    inferInstanceAs (Decidable (P s a ∧ Along step P (step s a) as))

variable {step} {P Q : σ → α → Prop} {I : σ → Prop}

theorem along_append {s : σ} {as bs : List α} :
    Along step P s (as ++ bs) ↔ Along step P s as ∧ Along step P (as.foldl step s) bs := by
  induction as generalizing s with
  | nil => exact (true_and (Along step P s bs)).symm ▸ Iff.rfl
  | cons a as ih =>
    show P s a ∧ Along step P (step s a) (as ++ bs) ↔
      (P s a ∧ Along step P (step s a) as) ∧ Along step P (as.foldl step (step s a)) bs
    rw [ih, and_assoc]

theorem Along.invariant (hstep : ∀ s a, I s → P s a → I (step s a)) {s : σ} {as : List α}
    (hs : I s) (h : Along step P s as) : I (as.foldl step s) := by
  induction as generalizing s with
  | nil => exact hs
  | cons a as ih => exact ih (hstep s a hs h.1) h.2

/-- Two properties of steps that agree where an invariant holds agree on runs, if either keeps the
invariant. -/
theorem along_iff_of_invariant (hiff : ∀ s a, I s → (P s a ↔ Q s a))
    (hstep : ∀ s a, I s → P s a → I (step s a)) {s : σ} {as : List α} (hs : I s) :
    Along step P s as ↔ Along step Q s as := by
  induction as generalizing s with
  | nil => exact Iff.rfl
  | cons a as ih =>
    show P s a ∧ Along step P (step s a) as ↔ Q s a ∧ Along step Q (step s a) as
    rw [← hiff s a hs]
    constructor
    · intro h
      exact ⟨h.1, (ih (hstep s a hs h.1)).mp h.2⟩
    · intro h
      exact ⟨h.1, (ih (hstep s a hs h.1)).mpr h.2⟩

theorem forall_states_iff {s : σ} {as : List α} :
    (∀ pre, pre <+: as → I (pre.foldl step s)) ↔
      I s ∧ Along step (fun s a => I (step s a)) s as := by
  induction as generalizing s with
  | nil =>
    constructor
    · intro h
      exact ⟨h [] (List.prefix_refl _), trivial⟩
    · intro h pre hpre
      rw [List.prefix_nil.mp hpre]
      exact h.1
  | cons a as ih =>
    constructor
    · intro h
      have hrest := ih.mp fun pre hpre => h (a :: pre) ((List.prefix_cons_inj a).mpr hpre)
      exact ⟨h [] List.nil_prefix, hrest⟩
    · intro h pre hpre
      cases pre with
      | nil => exact h.1
      | cons b pre =>
        obtain ⟨hb, hpre⟩ := List.cons_prefix_cons.mp hpre
        rw [hb]
        exact ih.mpr h.2 pre hpre

end Along

/-- A system whose actions are possible in some states only. -/
structure Guarded (σ α : Type) where
  enabled : σ → α → Prop
  decidable : ∀ s a, Decidable (enabled s a)
  effect : σ → α → σ

namespace Guarded

variable {σ α : Type} (g : Guarded σ α)

instance (s : σ) (a : α) : Decidable (g.enabled s a) := g.decidable s a

/-- An action that is not possible changes nothing. -/
def step (s : σ) (a : α) : σ := if g.enabled s a then g.effect s a else s

variable {g} {s : σ} {a : α}

theorem step_of_enabled (h : g.enabled s a) : g.step s a = g.effect s a := if_pos h

theorem step_of_not_enabled (h : ¬g.enabled s a) : g.step s a = s := if_neg h

theorem step_preserves {I : σ → Prop} (hs : I s)
    (heffect : g.enabled s a → I (g.effect s a)) : I (g.step s a) := by
  by_cases h : g.enabled s a
  · rw [step_of_enabled h]
    exact heffect h
  · rw [step_of_not_enabled h]
    exact hs

end Guarded
