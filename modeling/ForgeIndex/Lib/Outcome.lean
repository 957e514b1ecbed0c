import Mathlib.Logic.Basic
import Mathlib.Tactic.Common

/-!
# Answers and faults

Computations whose errors are of two kinds: answers that the caller expects, and faults that end
the process.  A judgement says exactly when a computation is safe and when it gives a value.
-/

namespace Outcome

variable {ε α β : Type} {faulty : ε → Prop} {x : Except ε α} {safe good safe' good' : Prop}
  {post : α → Prop}

/-- `x` faults exactly when it is not `safe`, and then gives a value, with `post`, exactly when
`good`. -/
def Judged (faulty : ε → Prop) (x : Except ε α) (safe good : Prop) (post : α → Prop) : Prop :=
  match x with
  | .ok a => safe ∧ good ∧ post a
  | .error e => (faulty e ∧ ¬safe) ∨ (¬faulty e ∧ safe ∧ ¬good)

namespace Judged

theorem ok (a : α) : Judged faulty (.ok a) True True fun b => b = a := ⟨trivial, trivial, rfl⟩

theorem answer {e : ε} (h : ¬faulty e) (hsafe : safe) (hgood : ¬good) :
    Judged faulty (.error e : Except ε α) safe good post := Or.inr ⟨h, hsafe, hgood⟩

theorem check {p : Prop} [Decidable p] {a : α} {e : ε} (h : faulty e) :
    Judged faulty (if p then .ok a else .error e) p True fun b => b = a := by
  by_cases hp : p
  · rw [if_pos hp]
    exact ⟨hp, trivial, rfl⟩
  · rw [if_neg hp]
    exact Or.inl ⟨h, hp⟩

theorem bind {f : α → Except ε β} {post' : β → Prop} (hx : Judged faulty x safe good post)
    (hf : safe → good → ∀ a, post a → Judged faulty (f a) safe' good' post') :
    Judged faulty (x >>= f) (safe ∧ (good → safe')) (good ∧ good') post' := by
  cases x with
  | ok a =>
    obtain ⟨hsafe, hgood, hpost⟩ := hx
    have hnext := hf hsafe hgood a hpost
    have hiff : (safe ∧ (good → safe') ↔ safe') ∧ (good ∧ good' ↔ good') := by tauto
    rw [hiff.1, hiff.2]
    exact hnext
  | error e =>
    obtain ⟨hfault, hsafe⟩ | ⟨hanswer, hsafe, hgood⟩ := hx
    · exact Or.inl ⟨hfault, fun h => hsafe h.1⟩
    · exact Or.inr ⟨hanswer, ⟨hsafe, fun h => (hgood h).elim⟩, fun h => hgood h.1⟩

theorem conseq {post' : α → Prop} (hx : Judged faulty x safe good post) (hsafe : safe' ↔ safe)
    (hgood : safe → (good' ↔ good)) (hpost : ∀ a, post a → post' a) :
    Judged faulty x safe' good' post' := by
  cases x with
  | ok a =>
    obtain ⟨hs, hg, hp⟩ := hx
    exact ⟨hsafe.mpr hs, (hgood hs).mpr hg, hpost a hp⟩
  | error e =>
    obtain ⟨hfault, hs⟩ | ⟨hanswer, hs, hg⟩ := hx
    · exact Or.inl ⟨hfault, mt hsafe.mp hs⟩
    · exact Or.inr ⟨hanswer, hsafe.mpr hs, mt (hgood hs).mp hg⟩

theorem seq {f : α → Except ε β} {post' : β → Prop} (hx : Judged faulty x safe True post)
    (hf : safe → ∀ a, post a → Judged faulty (f a) safe' good' post') :
    Judged faulty (x >>= f) (safe ∧ safe') good' post' :=
  (bind hx fun hsafe _ => hf hsafe).conseq (by rw [true_imp_iff]) (fun _ => by rw [true_and])
    fun _ h => h

theorem andThen {f : α → Except ε β} {post' : β → Prop} (hx : Judged faulty x safe good post)
    (hf : safe → good → ∀ a, post a → Judged faulty (f a) True True post') :
    Judged faulty (x >>= f) safe good post' :=
  (bind hx hf).conseq (by simp) (fun _ => by rw [and_true]) fun _ h => h

theorem of_ok (hx : Judged faulty x safe good post) {a : α} (h : x = .ok a) :
    safe ∧ good ∧ post a := by
  rw [h] at hx
  exact hx

theorem safe_iff (hx : Judged faulty x safe good post) :
    (∀ e, x = .error e → ¬faulty e) ↔ safe := by
  cases x with
  | ok a => exact ⟨fun _ => hx.1, fun _ e h => by cases h⟩
  | error e =>
    obtain ⟨hfault, hs⟩ | ⟨hanswer, hs, -⟩ := hx
    · exact ⟨fun h => (h e rfl hfault).elim, fun h => (hs h).elim⟩
    · refine ⟨fun _ => hs, ?_⟩
      intro _ e' heq
      cases heq
      exact hanswer

end Judged

end Outcome
