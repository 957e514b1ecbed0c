import Mathlib.Logic.Basic

/-!
# Processes that can fail or be stopped

A process transforms a state and ends with a value, with an error, or by being stopped from
outside.  The rules derive pre- and postconditions of a whole process from those of its steps;
the postcondition of an unfinished process speaks about the state it leaves behind.
-/

/-- How a process ends. -/
inductive Ended (ε α : Type) where
  | ok (a : α)
  | err (e : ε)
  | stopped
  deriving DecidableEq

def Proc (σ ε α : Type) : Type := σ → Ended ε α × σ

namespace Proc

variable {σ ε α β : Type}

protected def pure (a : α) : Proc σ ε α := fun s => (.ok a, s)

protected def bind (m : Proc σ ε α) (f : α → Proc σ ε β) : Proc σ ε β := fun s =>
  match m s with
  | (.ok a, s') => f a s'
  | (.err e, s') => (.err e, s')
  | (.stopped, s') => (.stopped, s')

instance : Monad (Proc σ ε) where
  pure := Proc.pure
  bind := Proc.bind

def get : Proc σ ε σ := fun s => (.ok s, s)

def modify (f : σ → σ) : Proc σ ε Unit := fun s => (.ok (), f s)

def fail (e : ε) : Proc σ ε α := fun s => (.err e, s)

def stop : Proc σ ε α := fun s => (.stopped, s)

def ofExcept (x : Except ε α) : Proc σ ε α := fun s =>
  match x with
  | .ok a => (.ok a, s)
  | .error e => (.err e, s)

/-- Run `m` and hand its error on as a value; a stopped process stays stopped. -/
def attempt {ε' : Type} (m : Proc σ ε α) : Proc σ ε' (Except ε α) := fun s =>
  match m s with
  | (.ok a, s') => (.ok (.ok a), s')
  | (.err e, s') => (.ok (.error e), s')
  | (.stopped, s') => (.stopped, s')

/-- Run `m` and go on whatever it gives. -/
def ignore {ε' : Type} (m : Proc σ ε α) : Proc σ ε' Unit := do
  let _ ← attempt m
  pure ()

/-- Rename the error. -/
def mapErr {ε' : Type} (g : ε → ε') (m : Proc σ ε α) : Proc σ ε' α := fun s =>
  match m s with
  | (.ok a, s') => (.ok a, s')
  | (.err e, s') => (.err (g e), s')
  | (.stopped, s') => (.stopped, s')

/-- Run `m` on a part of a larger state. -/
def within {τ : Type} (part : τ → σ) (put : τ → σ → τ) (m : Proc σ ε α) : Proc τ ε α := fun t =>
  ((m (part t)).1, put t (m (part t)).2)

/-- A loop over a list with an accumulator; it ends at the first body that does not finish. -/
def foldEach (f : α → β → Proc σ ε α) : α → List β → Proc σ ε α
  | a, [] => pure a
  | a, b :: bs => do foldEach f (← f a b) bs

/-- A loop over a list that collects what its bodies give. -/
def mapEach (f : β → Proc σ ε α) : List β → Proc σ ε (List α)
  | [] => pure []
  | b :: bs => do
    let a ← f b
    let as ← mapEach f bs
    pure (a :: as)

/-- A loop over a list that ends at the first body that does not finish. -/
def forEach (f : β → Proc σ ε Unit) (bs : List β) : Proc σ ε Unit :=
  foldEach (fun _ b => f b) () bs

@[simp] theorem pure_apply (a : α) (s : σ) : (pure a : Proc σ ε α) s = (.ok a, s) := rfl

theorem eq_ok_of_fst {m : Proc σ ε α} {s : σ} {a : α} (h : (m s).1 = .ok a) :
    m s = (.ok a, (m s).2) := Prod.ext h rfl

theorem bind_ok_iff {m : Proc σ ε α} {f : α → Proc σ ε β} {s t : σ} {b : β} :
    (m >>= f) s = (.ok b, t) ↔ ∃ a s', m s = (.ok a, s') ∧ f a s' = (.ok b, t) := by
  change Proc.bind m f s = _ ↔ _
  unfold Proc.bind
  split
  · rename_i a s' h
    exact ⟨fun hf => ⟨a, s', h, hf⟩, fun ⟨a', s'', h', hf⟩ => by
      rw [h] at h'
      cases h'
      exact hf⟩
  · rename_i e s' h
    exact ⟨fun hf => by simp at hf, fun ⟨a', s'', h', _⟩ => by simp [h] at h'⟩
  · rename_i s' h
    exact ⟨fun hf => by simp at hf, fun ⟨a', s'', h', _⟩ => by simp [h] at h'⟩

theorem bind_err_iff {m : Proc σ ε α} {f : α → Proc σ ε β} {s t : σ} {e : ε} :
    (m >>= f) s = (.err e, t) ↔
      m s = (.err e, t) ∨ ∃ a s', m s = (.ok a, s') ∧ f a s' = (.err e, t) := by
  change Proc.bind m f s = _ ↔ _
  unfold Proc.bind
  rcases hms : m s with ⟨a | e' | _, s'⟩
  · constructor
    · exact fun h => .inr ⟨a, s', rfl, h⟩
    · rintro (h | ⟨_, _, h, hf⟩)
      · cases h
      · cases h
        exact hf
  · simp
  · simp

theorem bind_of_ok {m : Proc σ ε α} {f : α → Proc σ ε β} {s s' : σ} {a : α}
    (h : m s = (.ok a, s')) : (m >>= f) s = f a s' := by
  change Proc.bind m f s = _
  unfold Proc.bind
  rw [h]

theorem bind_of_err {m : Proc σ ε α} {f : α → Proc σ ε β} {s s' : σ} {e : ε}
    (h : m s = (.err e, s')) : (m >>= f) s = (.err e, s') := by
  change Proc.bind m f s = _
  unfold Proc.bind
  rw [h]

theorem bind_of_stopped {m : Proc σ ε α} {f : α → Proc σ ε β} {s s' : σ}
    (h : m s = (.stopped, s')) : (m >>= f) s = (.stopped, s') := by
  change Proc.bind m f s = _
  unfold Proc.bind
  rw [h]

theorem ignore_mapErr_of_err {ε' ε'' : Type} {g : ε → ε'} {m : Proc σ ε α} {s s' : σ} {e : ε}
    (h : m s = (.err e, s')) : (ignore (mapErr g m) : Proc σ ε'' Unit) s = (.ok (), s') := by
  have hmap : mapErr g m s = (.err (g e), s') := by
    unfold mapErr
    rw [h]
  change Proc.bind (attempt (mapErr g m)) _ s = _
  unfold Proc.bind attempt
  rw [hmap]
  rfl

theorem attempt_of_ok {ε' : Type} {m : Proc σ ε α} {s s' : σ} {a : α} (h : m s = (.ok a, s')) :
    (attempt m : Proc σ ε' _) s = (.ok (.ok a), s') := by
  unfold attempt
  rw [h]

theorem attempt_of_err {ε' : Type} {m : Proc σ ε α} {s s' : σ} {e : ε} (h : m s = (.err e, s')) :
    (attempt m : Proc σ ε' _) s = (.ok (.error e), s') := by
  unfold attempt
  rw [h]

theorem ignore_of_ok {ε' : Type} {m : Proc σ ε α} {s s' : σ} {a : α} (h : m s = (.ok a, s')) :
    (ignore m : Proc σ ε' Unit) s = (.ok (), s') :=
  bind_of_ok (attempt_of_ok h)

theorem snd_ignore {ε' : Type} (m : Proc σ ε α) (s : σ) :
    ((Proc.ignore m : Proc σ ε' _) s).2 = (m s).2 := by
  change (Proc.bind (Proc.attempt m) _ s).2 = _
  unfold Proc.bind Proc.attempt
  rcases m s with ⟨a | e | _, t⟩ <;> rfl

theorem mapErr_ok_iff {ε' : Type} {g : ε → ε'} {m : Proc σ ε α} {s t : σ} {a : α} :
    mapErr g m s = (.ok a, t) ↔ m s = (.ok a, t) := by
  unfold mapErr
  rcases hms : m s with ⟨b | e | _, s'⟩ <;> simp

theorem mapErr_err_iff {ε' : Type} {g : ε → ε'} {m : Proc σ ε α} {s t : σ} {e : ε'} :
    mapErr g m s = (.err e, t) ↔ ∃ e', m s = (.err e', t) ∧ e = g e' := by
  unfold mapErr
  rcases hms : m s with ⟨b | e' | _, s'⟩
  · simp
  · constructor
    · intro h
      cases h
      exact ⟨e', rfl, rfl⟩
    · rintro ⟨_, h, rfl⟩
      cases h
      rfl
  · simp

theorem foldEach_cons_ok_iff {f : α → β → Proc σ ε α} {a c : α} {b : β} {bs : List β} {s t : σ} :
    foldEach f a (b :: bs) s = (.ok c, t) ↔
      ∃ a' s', f a b s = (.ok a', s') ∧ foldEach f a' bs s' = (.ok c, t) := by
  change (f a b >>= fun a' => foldEach f a' bs) s = _ ↔ _
  rw [bind_ok_iff]

theorem mapEach_cons_ok_iff {f : β → Proc σ ε α} {b : β} {bs : List β} {as : List α} {s t : σ} :
    mapEach f (b :: bs) s = (.ok as, t) ↔
      ∃ a s' rest, f b s = (.ok a, s') ∧ mapEach f bs s' = (.ok rest, t) ∧ as = a :: rest := by
  change (f b >>= fun a => mapEach f bs >>= fun rest => pure (a :: rest)) s = _ ↔ _
  rw [bind_ok_iff]
  constructor
  · intro ⟨a, s', hf, h⟩
    obtain ⟨rest, s'', hrest, h⟩ := bind_ok_iff.mp h
    cases h
    exact ⟨a, s', rest, hf, hrest, rfl⟩
  · intro ⟨a, s', rest, hf, hrest, has⟩
    subst has
    exact ⟨a, s', hf, bind_ok_iff.mpr ⟨rest, t, hrest, rfl⟩⟩

theorem forEach_cons_ok_iff {f : β → Proc σ ε Unit} {b : β} {bs : List β} {s t : σ} :
    forEach f (b :: bs) s = (.ok (), t) ↔
      ∃ s', f b s = (.ok (), s') ∧ forEach f bs s' = (.ok (), t) := by
  unfold forEach
  rw [foldEach_cons_ok_iff]
  exact ⟨fun ⟨_, s', h, h'⟩ => ⟨s', h, h'⟩, fun ⟨s', h, h'⟩ => ⟨(), s', h, h'⟩⟩

@[simp] theorem pure_bind (a : α) (f : α → Proc σ ε β) : (pure a >>= f) = f a := rfl

theorem bind_pure_unit (m : Proc σ ε Unit) : (m >>= fun _ => pure ()) = m := by
  funext s
  change Proc.bind m (fun _ => pure ()) s = m s
  unfold Proc.bind
  rcases hms : m s with ⟨a | e | _, s'⟩ <;> rfl

theorem bind_assoc {γ : Type} (m : Proc σ ε α) (f : α → Proc σ ε β) (g : β → Proc σ ε γ) :
    (m >>= f >>= g) = m >>= fun a => f a >>= g := by
  funext s
  change Proc.bind (Proc.bind m f) g s = Proc.bind m (fun a => Proc.bind (f a) g) s
  unfold Proc.bind
  rcases m s with ⟨a | e | _, s'⟩ <;> rfl

theorem mapErr_bind {ε' : Type} (g : ε → ε') (m : Proc σ ε α) (f : α → Proc σ ε β) :
    mapErr g (m >>= f) = mapErr g m >>= fun a => mapErr g (f a) := by
  funext s
  change mapErr g (Proc.bind m f) s = Proc.bind (mapErr g m) (fun a => mapErr g (f a)) s
  rcases hms : m s with ⟨a | e | _, s'⟩ <;> simp [mapErr, Proc.bind, hms]

@[simp] theorem forEach_nil (f : β → Proc σ ε Unit) : forEach f [] = pure () := rfl

theorem forEach_cons (f : β → Proc σ ε Unit) (b : β) (bs : List β) :
    forEach f (b :: bs) = f b >>= fun _ => forEach f bs := rfl

/-- A loop that ends with an error has run the bodies before one that ends with it. -/
theorem foldEach_err {f : α → β → Proc σ ε α} {a : α} {bs : List β} {s t : σ} {e : ε}
    (h : foldEach f a bs s = (.err e, t)) :
    ∃ pre b post a' s', bs = pre ++ b :: post ∧ foldEach f a pre s = (.ok a', s') ∧
      f a' b s' = (.err e, t) := by
  induction bs generalizing a s with
  | nil => cases h
  | cons b bs ih =>
    rcases bind_err_iff.mp h with hfirst | ⟨a₁, s₁, hfirst, hrest⟩
    · exact ⟨[], b, bs, a, s, rfl, rfl, hfirst⟩
    · obtain ⟨pre, c, post, a', s', rfl, hpre, hc⟩ := ih hrest
      exact ⟨b :: pre, c, post, a', s', rfl, foldEach_cons_ok_iff.mpr ⟨a₁, s₁, hfirst, hpre⟩, hc⟩

theorem forEach_err {f : β → Proc σ ε Unit} {bs : List β} {s t : σ} {e : ε}
    (h : forEach f bs s = (.err e, t)) :
    ∃ pre b post s', bs = pre ++ b :: post ∧ forEach f pre s = (.ok (), s') ∧
      f b s' = (.err e, t) := by
  obtain ⟨pre, b, post, _, s', hbs, hpre, hb⟩ := foldEach_err h
  exact ⟨pre, b, post, s', hbs, hpre, hb⟩

theorem forEach_singleton (f : β → Proc σ ε Unit) (b : β) : forEach f [b] = f b := by
  rw [forEach_cons, forEach_nil, bind_pure_unit]

theorem forEach_append (f : β → Proc σ ε Unit) (bs cs : List β) :
    forEach f (bs ++ cs) = forEach f bs >>= fun _ => forEach f cs := by
  induction bs with
  | nil => rfl
  | cons b bs ih => rw [List.cons_append, forEach_cons, ih, forEach_cons, bind_assoc]

theorem forEach_map {γ : Type} (f : β → Proc σ ε Unit) (g : γ → β) (cs : List γ) :
    forEach f (cs.map g) = forEach (fun c => f (g c)) cs := by
  induction cs with
  | nil => rfl
  | cons c cs ih => rw [List.map_cons, forEach_cons, ih, forEach_cons]

theorem forEach_flatMap {γ : Type} (f : β → Proc σ ε Unit) (g : γ → List β) (cs : List γ) :
    forEach f (cs.flatMap g) = forEach (fun c => forEach f (g c)) cs := by
  induction cs with
  | nil => rfl
  | cons c cs ih => rw [List.flatMap_cons, forEach_append, ih, forEach_cons]

theorem mapErr_forEach {ε' : Type} (g : ε → ε') (f : β → Proc σ ε Unit) (bs : List β) :
    mapErr g (forEach f bs) = forEach (fun b => mapErr g (f b)) bs := by
  induction bs with
  | nil => rfl
  | cons b bs ih =>
    rw [forEach_cons, forEach_cons, mapErr_bind]
    congr
    funext _
    exact ih

/-- `Q` holds of a finished outcome, `E` of an unfinished one. -/
def Post (Q : α → σ → Prop) (E : σ → Prop) : Ended ε α × σ → Prop
  | (.ok a, s) => Q a s
  | (.err _, s) => E s
  | (.stopped, s) => E s

/-- From `P` a finished `m` establishes `Q`, an unfinished one `E`. -/
def Triple (P : σ → Prop) (m : Proc σ ε α) (Q : α → σ → Prop) (E : σ → Prop) : Prop :=
  ∀ s, P s → Post Q E (m s)

namespace Triple

variable {P P' : σ → Prop} {Q : α → σ → Prop} {R : β → σ → Prop} {E E' : σ → Prop}

theorem pure {a : α} (h : ∀ s, P s → Q a s) : Triple P (pure a : Proc σ ε α) Q E :=
  fun s hs => h s hs

theorem bind {m : Proc σ ε α} {f : α → Proc σ ε β} (hm : Triple P m Q E)
    (hf : ∀ a, Triple (Q a) (f a) R E) : Triple P (m >>= f) R E := by
  intro s hs
  have h := hm s hs
  change Post R E (Proc.bind m f s)
  unfold Proc.bind
  rcases hms : m s with ⟨a | e | _, s'⟩ <;> rw [hms] at h
  · exact hf a s' h
  · exact h
  · exact h

theorem conseq {m : Proc σ ε α} {Q' : α → σ → Prop} (h : Triple P m Q E)
    (hP : ∀ s, P' s → P s) (hQ : ∀ a s, Q a s → Q' a s) (hE : ∀ s, E s → E' s) :
    Triple P' m Q' E' := by
  intro s hs
  have h' := h s (hP s hs)
  rcases hms : m s with ⟨a | e | _, s'⟩ <;> rw [hms] at h'
  · exact hQ _ _ h'
  · exact hE _ h'
  · exact hE _ h'

theorem and {m : Proc σ ε α} {Q' : α → σ → Prop} (h : Triple P m Q E) (h' : Triple P' m Q' E') :
    Triple (fun s => P s ∧ P' s) m (fun a s => Q a s ∧ Q' a s) fun s => E s ∧ E' s := by
  intro s hs
  have hpost := h s hs.1
  have hpost' := h' s hs.2
  rcases hms : m s with ⟨a | e | _, s'⟩ <;> rw [hms] at hpost hpost' <;> exact ⟨hpost, hpost'⟩

theorem modify {f : σ → σ} {Q : Unit → σ → Prop} (h : ∀ s, P s → Q () (f s)) :
    Triple P (Proc.modify f : Proc σ ε Unit) Q E := fun s hs => h s hs

theorem get {Q : σ → σ → Prop} (h : ∀ s, P s → Q s s) :
    Triple P (Proc.get : Proc σ ε σ) Q E := fun s hs => h s hs

theorem fail {e : ε} (h : ∀ s, P s → E s) : Triple P (Proc.fail e : Proc σ ε α) Q E :=
  fun s hs => h s hs

theorem stop (h : ∀ s, P s → E s) : Triple P (Proc.stop : Proc σ ε α) Q E :=
  fun s hs => h s hs

theorem ofExcept {x : Except ε α} (hok : ∀ a, x = .ok a → ∀ s, P s → Q a s)
    (herr : ∀ s, P s → E s) : Triple P (Proc.ofExcept x : Proc σ ε α) Q E := by
  intro s hs
  unfold Proc.ofExcept
  cases x with
  | ok a => exact hok a rfl s hs
  | error e => exact herr s hs

theorem attempt {ε' : Type} {m : Proc σ ε α} {R : Except ε α → σ → Prop}
    (h : Triple P m (fun a s => R (.ok a) s) fun s => E s ∧ ∀ e, R (.error e) s) :
    Triple P (Proc.attempt m : Proc σ ε' _) R E := by
  intro s hs
  have h' := h s hs
  unfold Proc.attempt
  rcases hms : m s with ⟨a | e | _, s'⟩ <;> rw [hms] at h'
  · exact h'
  · exact h'.2 _
  · exact h'.1

theorem ignore {ε' : Type} {m : Proc σ ε α} {R : σ → Prop}
    (h : Triple P m (fun _ => R) fun s => E s ∧ R s) :
    Triple P (Proc.ignore m : Proc σ ε' _) (fun _ => R) E :=
  (attempt (R := fun _ => R) (h.conseq (fun _ hs => hs) (fun _ _ hs => hs)
    fun _ hs => ⟨hs.1, fun _ => hs.2⟩)).bind fun _ => Triple.pure fun _ hs => hs

theorem ignore_invariant {ε' : Type} {m : Proc σ ε α} {I : σ → Prop}
    (h : Triple I m (fun _ => I) I) : Triple I (Proc.ignore m : Proc σ ε' _) (fun _ => I) I :=
  ignore (h.conseq (fun _ hs => hs) (fun _ _ hs => hs) fun _ hs => ⟨hs, hs⟩)

theorem mapErr {ε' : Type} {g : ε → ε'} {m : Proc σ ε α} (h : Triple P m Q E) :
    Triple P (Proc.mapErr g m) Q E := by
  intro s hs
  have h' := h s hs
  unfold Proc.mapErr
  rcases hms : m s with ⟨a | e | _, s'⟩ <;> rw [hms] at h' <;> exact h'

theorem within {τ : Type} (part : τ → σ) (put : τ → σ → τ) {m : Proc σ ε α} (h : Triple P m Q E)
    {t : τ} (ht : P (part t)) :
    Triple (fun t' => t' = t) (Proc.within part put m) (fun a t' => ∃ s, t' = put t s ∧ Q a s)
      fun t' => ∃ s, t' = put t s ∧ E s := by
  intro t' htt
  subst htt
  have h' := h (part t') ht
  unfold Proc.within
  rcases hm : m (part t') with ⟨a | e | _, s⟩ <;> rw [hm] at h' <;> exact ⟨s, rfl, h'⟩

theorem within_any {τ : Type} (part : τ → σ) (put : τ → σ → τ) (m : Proc σ ε α) (t : τ) :
    Triple (fun t' => t' = t) (Proc.within part put m) (fun _ t' => ∃ s, t' = put t s)
      fun t' => ∃ s, t' = put t s := by
  intro t' ht
  subst ht
  unfold Proc.within
  rcases m (part t') with ⟨a | e | _, s⟩ <;> exact ⟨s, rfl⟩

/-- Loop rule: `I done a` holds once exactly the elements of `done` have been processed and
`a` has been accumulated. -/
theorem foldEach {f : α → β → Proc σ ε α} {bs : List β} {I : List β → α → σ → Prop} (a₀ : α)
    (hstep : ∀ pre b post a, bs = pre ++ b :: post →
      Triple (I pre a) (f a b) (fun a' => I (pre ++ [b]) a') E) :
    Triple (I [] a₀) (Proc.foldEach f a₀ bs) (fun a => I bs a) E := by
  suffices h : ∀ post pre a, bs = pre ++ post →
      Triple (I pre a) (Proc.foldEach f a post) (fun a' => I bs a') E from h bs [] a₀ rfl
  intro post
  induction post with
  | nil =>
    intro pre a hpre
    rw [List.append_nil] at hpre
    subst hpre
    exact Triple.pure fun _ hs => hs
  | cons b post ih =>
    intro pre a hpre
    exact (hstep pre b post a hpre).bind fun a' => ih (pre ++ [b]) a' (by simp [hpre])

theorem forEach {f : β → Proc σ ε Unit} {bs : List β} {I : List β → σ → Prop}
    (hstep : ∀ pre b post, bs = pre ++ b :: post →
      Triple (I pre) (f b) (fun _ => I (pre ++ [b])) E) :
    Triple (I []) (Proc.forEach f bs) (fun _ => I bs) E :=
  foldEach (I := fun bs _ => I bs) () fun pre b post _ h => hstep pre b post h

end Triple

theorem Triple.of_ok {P : σ → Prop} {m : Proc σ ε α} {Q : α → σ → Prop} {E : σ → Prop}
    (h : Triple P m Q E) {s t : σ} {a : α} (hs : P s) (hm : m s = (.ok a, t)) : Q a t := by
  have h' := h s hs
  rw [hm] at h'
  exact h'

theorem Triple.snd {P : σ → Prop} {m : Proc σ ε α} {I : σ → Prop}
    (h : Triple P m (fun _ => I) I) {s : σ} (hs : P s) : I (m s).2 := by
  have h' := h s hs
  rcases hms : m s with ⟨a | e | _, s'⟩ <;> rw [hms] at h' <;> exact h'

section Leaves

variable {γ : Type} {g : σ → γ}

/-- The process leaves a part of the state as it is, however it ends. -/
def Leaves (g : σ → γ) (m : Proc σ ε α) : Prop :=
  ∀ c, Triple (fun s => g s = c) m (fun _ s => g s = c) fun s => g s = c

theorem Leaves.triple {m : Proc σ ε α} (h : Leaves g m) (P : γ → Prop) :
    Triple (fun s => P (g s)) m (fun _ s => P (g s)) fun s => P (g s) := by
  intro s hs
  exact (h (g s)).conseq (fun _ hc => hc) (fun _ s' hc => hc ▸ hs) (fun s' hc => hc ▸ hs) s rfl

theorem Leaves.bind {m : Proc σ ε α} {f : α → Proc σ ε β} (hm : Leaves g m)
    (hf : ∀ a, Leaves g (f a)) : Leaves g (m >>= f) := fun c => (hm c).bind fun a => hf a c

theorem Leaves.modify {f : σ → σ} (h : ∀ s, g (f s) = g s) :
    Leaves g (Proc.modify f : Proc σ ε Unit) :=
  fun _ => Triple.modify fun s hs => (h s).trans hs

theorem Leaves.forEach {f : β → Proc σ ε Unit} {bs : List β} (h : ∀ b, Leaves g (f b)) :
    Leaves g (Proc.forEach f bs) :=
  fun c => Triple.forEach (I := fun _ s => g s = c) fun _ b _ _ => h b c

end Leaves

end Proc
