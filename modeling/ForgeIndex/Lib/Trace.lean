import ForgeIndex.Lib.Proc

/-!
# Processes that write down what they do

A trace beside the state is only written, so that the process with the trace behaves as the one
without.
-/

namespace Proc

variable {σ τ ε α β : Type}

/-- The process leaves the trace alone. -/
def beside (m : Proc σ ε α) : Proc (σ × τ) ε α := fun s => ((m s.1).1, ((m s.1).2, s.2))

/-- A step of the trace. -/
def note (f : τ → τ) : Proc (σ × τ) ε Unit := modify fun s => (s.1, f s.2)

/-- Without its trace `m'` is `m`. -/
def Erases (m' : Proc (σ × τ) ε α) (m : Proc σ ε α) : Prop :=
  ∀ s t, (m' (s, t)).1 = (m s).1 ∧ (m' (s, t)).2.1 = (m s).2

theorem erases_beside (m : Proc σ ε α) : Erases (τ := τ) (beside m) m := fun _ _ => ⟨rfl, rfl⟩

theorem erases_pure (a : α) : Erases (τ := τ) (pure a) (pure a : Proc σ ε α) :=
  fun _ _ => ⟨rfl, rfl⟩

namespace Erases

variable {m' : Proc (σ × τ) ε α} {m : Proc σ ε α}

theorem bind {f' : α → Proc (σ × τ) ε β} {f : α → Proc σ ε β} (h : Erases m' m)
    (hf : ∀ a, Erases (f' a) (f a)) : Erases (m' >>= f') (m >>= f) := by
  intro s t
  obtain ⟨hend, hstate⟩ := h s t
  show (Proc.bind m' f' (s, t)).1 = (Proc.bind m f s).1 ∧
    (Proc.bind m' f' (s, t)).2.1 = (Proc.bind m f s).2
  unfold Proc.bind
  rcases hm' : m' (s, t) with ⟨end', s', t'⟩
  rcases hm : m s with ⟨ended, u⟩
  rw [hm', hm] at hend hstate
  dsimp only at hend hstate
  subst hend hstate
  cases end' with
  | ok a => exact hf a s' t'
  | err e => exact ⟨rfl, rfl⟩
  | stopped => exact ⟨rfl, rfl⟩

theorem note_bind (h : Erases m' m) (f : τ → τ) : Erases (note f >>= fun _ => m') m :=
  fun s t => h s (f t)

theorem forEach {f' : β → Proc (σ × τ) ε Unit} {f : β → Proc σ ε Unit}
    (h : ∀ b, Erases (f' b) (f b)) (bs : List β) : Erases (forEach f' bs) (forEach f bs) := by
  induction bs with
  | nil => exact erases_pure ()
  | cons b bs ih =>
    rw [forEach_cons, forEach_cons]
    exact (h b).bind fun _ => ih

end Erases

theorem Triple.beside {P : σ → Prop} {m : Proc σ ε α} {Q : α → σ → Prop} {E : σ → Prop}
    (h : Triple P m Q E) (T : τ → Prop) :
    Triple (fun s => P s.1 ∧ T s.2) (Proc.beside m) (fun a s => Q a s.1 ∧ T s.2)
      fun s => E s.1 ∧ T s.2 := by
  intro s ⟨hs, ht⟩
  have hpost := h s.1 hs
  unfold Proc.beside
  rcases hm : m s.1 with ⟨a | e | _, s'⟩ <;> rw [hm] at hpost <;> exact ⟨hpost, ht⟩

theorem Triple.beside_each {P : σ → τ → Prop} {m : Proc σ ε α} {Q : α → σ → τ → Prop}
    {E : σ → τ → Prop}
    (h : ∀ t, Triple (fun s => P s t) m (fun a s => Q a s t) fun s => E s t) :
    Triple (fun s => P s.1 s.2) (Proc.beside m) (fun a s => Q a s.1 s.2) fun s => E s.1 s.2 := by
  intro s hs
  have hpost := h s.2 s.1 hs
  unfold Proc.beside
  rcases hm : m s.1 with ⟨a | e | _, s'⟩ <;> rw [hm] at hpost <;> exact hpost

variable {γ : Type}

/-- A process that leaves a part of the state as it is keeps what is said of this part and the
trace. -/
theorem Triple.beside_of_frame {m : Proc σ ε α} {g : σ → γ}
    (h : ∀ c, Triple (fun s => g s = c) m (fun _ s => g s = c) fun s => g s = c)
    (P : γ → τ → Prop) :
    Triple (fun s => P (g s.1) s.2) (Proc.beside m) (fun _ s => P (g s.1) s.2)
      fun s => P (g s.1) s.2 := by
  intro s hs
  have hpost := h (g s.1) s.1 rfl
  unfold Proc.beside
  rcases hm : m s.1 with ⟨a | e | _, s'⟩ <;> rw [hm] at hpost <;>
    exact (congrArg (fun c => P c s.2) hpost).mpr hs

/-- Write down a part of the state. -/
def snap (g : σ → γ) : Proc (σ × List γ) ε Unit := modify fun s => (s.1, s.2 ++ [g s.1])

theorem Erases.bind_snap {m' : Proc (σ × List γ) ε Unit} {m : Proc σ ε Unit} (h : Erases m' m)
    (g : σ → γ) : Erases (m' >>= fun _ => snap g) m := by
  have hbind : Erases (m' >>= fun _ => snap g) (m >>= fun _ => pure ()) :=
    h.bind fun _ _ _ => ⟨rfl, rfl⟩
  rw [bind_pure_unit] at hbind
  exact hbind

end Proc
