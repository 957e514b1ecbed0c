import Mathlib.Data.List.Basic

/-!
# Texts that show where they end

Two values are written, each with something behind it.  When the whole texts agree, the values
agree, and so does what stands behind them.
-/

namespace Delimited

variable {α σ : Type}

/-- `a` is read back from its text `w a` among the `good` values, whatever stands behind it that
satisfies `F`. -/
def ReadsBack (good : α → Prop) (F : List σ → Prop) (w : α → List σ) (a : α) : Prop :=
  ∀ b r s, good b → F r → F s → w a ++ r = w b ++ s → a = b ∧ r = s

theorem ReadsBack.of_read {good : α → Prop} {F : List σ → Prop} {w : α → List σ}
    (read : List σ → Option (α × List σ)) (h : ∀ a r, read (w a ++ r) = some (a, r)) (a : α) :
    ReadsBack good F w a := by
  intro b r s _ _ _ heq
  have hread := h a r
  rw [heq, h b s] at hread
  have hpair := Option.some.inj hread
  exact ⟨congrArg Prod.fst hpair.symm, congrArg Prod.snd hpair.symm⟩

theorem word_inj {p : σ → Bool} {x y r s : List σ} (hx : ∀ c ∈ x, p c = true)
    (hy : ∀ c ∈ y, p c = true) (hr : ∀ c ∈ r.head?, p c = false)
    (hs : ∀ c ∈ s.head?, p c = false) (h : x ++ r = y ++ s) : x = y ∧ r = s := by
  induction x generalizing y with
  | nil =>
    cases y with
    | nil => exact ⟨rfl, h⟩
    | cons c y =>
      -- `c` would be a letter of one word and stand behind the other
      have hc : p c = false := hr c (by rw [← List.nil_append r, h]; rfl)
      rw [hy c List.mem_cons_self] at hc
      cases hc
  | cons c x ih =>
    cases y with
    | nil =>
      have hc : p c = false := hs c (by rw [← List.nil_append s, ← h]; rfl)
      rw [hx c List.mem_cons_self] at hc
      cases hc
    | cons d y =>
      rw [List.cons_append, List.cons_append] at h
      have htail := ih (fun e he => hx e (List.mem_cons_of_mem c he))
        (fun e he => hy e (List.mem_cons_of_mem d he)) (List.cons.inj h).2
      exact ⟨by rw [(List.cons.inj h).1, htail.1], htail.2⟩

theorem takeWhile_word {p : σ → Bool} {x r : List σ} (hx : ∀ c ∈ x, p c = true)
    (hr : ∀ c ∈ r.head?, p c = false) :
    (x ++ r).takeWhile p = x ∧ (x ++ r).dropWhile p = r := by
  rw [List.takeWhile_append_of_pos hx, List.dropWhile_append_of_pos hx]
  cases r with
  | nil => simp
  | cons c r => simp [hr c rfl]

section Closed

variable {good : α → Prop} {w : α → List σ} {close : σ}

/-- Values without a separator, with a letter at the end that opens none of them. -/
theorem flatMap_inj (good : α → Prop) (hopen : ∀ b t, good b → (w b ++ t).head? ≠ some close)
    {as bs : List α} {r s : List σ}
    (has : ∀ a ∈ as, good a ∧ ReadsBack good (fun _ => True) w a) (hbs : ∀ b ∈ bs, good b)
    (h : as.flatMap w ++ close :: r = bs.flatMap w ++ close :: s) : as = bs ∧ r = s := by
  induction as generalizing bs with
  | nil =>
    cases bs with
    | nil => exact ⟨rfl, (List.cons.inj h).2⟩
    | cons b bs =>
      rw [List.flatMap_cons, List.append_assoc, List.flatMap_nil, List.nil_append] at h
      have hhead := hopen b (bs.flatMap w ++ close :: s) (hbs b List.mem_cons_self)
      rw [← h] at hhead
      exact absurd rfl hhead
  | cons a as ih =>
    rw [List.flatMap_cons, List.append_assoc] at h
    cases bs with
    | nil =>
      have hhead := hopen a (as.flatMap w ++ close :: r) (has a List.mem_cons_self).1
      rw [h] at hhead
      exact absurd rfl hhead
    | cons b bs =>
      rw [List.flatMap_cons, List.append_assoc] at h
      obtain ⟨hab, hrest⟩ := (has a List.mem_cons_self).2 b _ _ (hbs b List.mem_cons_self)
        trivial trivial h
      have htail := ih (fun a ha => has a (List.mem_cons_of_mem _ ha))
        (fun b hb => hbs b (List.mem_cons_of_mem _ hb)) hrest
      exact ⟨by rw [hab, htail.1], htail.2⟩

/-- What stands behind a value of a separated sequence. -/
def behind (w : α → List σ) (sep close : σ) (r : List σ) : List α → List σ
  | [] => close :: r
  | a :: as => sep :: (List.intercalate [sep] ((a :: as).map w) ++ close :: r)

theorem intercalate_cons (w : α → List σ) (sep close : σ) (r : List σ) (a : α) (as : List α) :
    List.intercalate [sep] ((a :: as).map w) ++ close :: r = w a ++ behind w sep close r as := by
  cases as with
  | nil =>
    rw [List.map_singleton, List.intercalate_singleton]
    rfl
  | cons b as =>
    rw [List.map_cons, List.map_cons, List.intercalate_cons_cons, List.append_assoc,
      List.append_assoc]
    rfl

theorem intercalate_inj {F : List σ → Prop} {sep : σ} (hne : sep ≠ close)
    (hsep : ∀ t, F (sep :: t)) (hclose : ∀ t, F (close :: t))
    (hopen : ∀ b t, good b → (w b ++ t).head? ≠ some close)
    {as bs : List α} {r s : List σ} (has : ∀ a ∈ as, good a ∧ ReadsBack good F w a)
    (hbs : ∀ b ∈ bs, good b)
    (h : List.intercalate [sep] (as.map w) ++ close :: r =
      List.intercalate [sep] (bs.map w) ++ close :: s) : as = bs ∧ r = s := by
  have hbehind (t : List σ) (cs : List α) : F (behind w sep close t cs) := by
    cases cs with
    | nil => exact hclose t
    | cons c cs => exact hsep _
  induction as generalizing bs with
  | nil =>
    cases bs with
    | nil => exact ⟨rfl, (List.cons.inj h).2⟩
    | cons b bs =>
      rw [intercalate_cons] at h
      have hhead := hopen b (behind w sep close s bs) (hbs b List.mem_cons_self)
      rw [← h] at hhead
      exact absurd rfl hhead
  | cons a as ih =>
    rw [intercalate_cons] at h
    cases bs with
    | nil =>
      have hhead := hopen a (behind w sep close r as) (has a List.mem_cons_self).1
      rw [h] at hhead
      exact absurd rfl hhead
    | cons b bs =>
      rw [intercalate_cons] at h
      obtain ⟨hab, hrest⟩ := (has a List.mem_cons_self).2 b _ _ (hbs b List.mem_cons_self)
        (hbehind r as) (hbehind s bs) h
      -- behind equal values a sequence goes on or ends, and the two letters differ
      have htail : as = bs ∧ r = s := by
        cases as with
        | nil =>
          cases bs with
          | nil => exact ⟨rfl, (List.cons.inj hrest).2⟩
          | cons c cs => exact absurd (List.cons.inj hrest).1.symm hne
        | cons c cs =>
          cases bs with
          | nil => exact absurd (List.cons.inj hrest).1 hne
          | cons d ds =>
            exact ih (fun a ha => has a (List.mem_cons_of_mem _ ha))
              (fun b hb => hbs b (List.mem_cons_of_mem _ hb)) (List.cons.inj hrest).2
      exact ⟨by rw [hab, htail.1], htail.2⟩

end Closed

end Delimited
