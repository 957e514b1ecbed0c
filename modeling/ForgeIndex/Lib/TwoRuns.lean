import ForgeIndex.Lib.Proc

/-!
# Two runs of a process

What can be said of two runs that both finish, when the states they start in agree on a part.
-/

namespace Proc

variable {σ ε ε' α β γ : Type}

/-- What a finished run gives and leaves of a part of the state is determined by what it finds of
this part. -/
def Determined (g : σ → γ) (m : Proc σ ε α) : Prop :=
  ∀ s s' a a' t t', g s = g s' → m s = (.ok a, t) → m s' = (.ok a', t') → a = a' ∧ g t = g t'

/-- Runs of the two from the same state leave the same of a part of the state, when both finish. -/
def Alike (g : σ → γ) (m : Proc σ ε α) (m' : Proc σ ε β) : Prop :=
  ∀ s a b t t', m s = (.ok a, t) → m' s = (.ok b, t') → g t = g t'

namespace Determined

variable {g : σ → γ}

theorem agree {m : Proc σ ε α} (hm : Determined g m) {s s' t t' : σ} {a a' : α}
    (h : m s = (.ok a, t)) (h' : m s' = (.ok a', t')) (hs : g s = g s') : g t = g t' :=
  (hm s s' a a' t t' hs h h').2

theorem pure (a : α) : Determined g (pure a : Proc σ ε α) := by
  intro s s' b b' t t' hs h h'
  cases h
  cases h'
  exact ⟨rfl, hs⟩

theorem stop : Determined g (stop : Proc σ ε α) := by
  intro s s' b b' t t' hs h
  cases h

theorem bind {m : Proc σ ε α} {f : α → Proc σ ε β} (hm : Determined g m)
    (hf : ∀ a, Determined g (f a)) : Determined g (m >>= f) := by
  intro s s' b b' t t' hs h h'
  obtain ⟨a, u, hmu, hfu⟩ := bind_ok_iff.mp h
  obtain ⟨a', u', hmu', hfu'⟩ := bind_ok_iff.mp h'
  obtain ⟨ha, hu⟩ := hm s s' a a' u u' hs hmu hmu'
  subst ha
  exact hf a u u' b b' t t' hu hfu hfu'

theorem mapErr {m : Proc σ ε α} {f : ε → ε'} (hm : Determined g m) :
    Determined g (mapErr f m) := by
  intro s s' a a' t t' hs h h'
  exact hm s s' a a' t t' hs (mapErr_ok_iff.mp h) (mapErr_ok_iff.mp h')

theorem forEach {f : β → Proc σ ε Unit} (hf : ∀ b, Determined g (f b)) (bs : List β) :
    Determined g (forEach f bs) := by
  induction bs with
  | nil => exact pure ()
  | cons b bs ih =>
    rw [forEach_cons]
    exact (hf b).bind fun _ => ih

end Determined

end Proc
