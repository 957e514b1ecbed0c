import Mathlib.Data.List.Nodup

/-!
# Insertion where the first of several conflicting elements stays

A log of insertions that is replayed from somewhere in its middle changes nothing up to the point
that was reached before.
-/

namespace FirstWins

variable {α : Type} (conflict : α → α → Bool)

/-- The element is appended unless it conflicts with one that is there. -/
def insertNew (t : List α) (r : α) : List α := if t.any (conflict r) then t else t ++ [r]

def insertAllNew (t : List α) (rs : List α) : List α := rs.foldl (insertNew conflict) t

variable {conflict}

theorem insertAllNew_append (t rs rs' : List α) :
    insertAllNew conflict t (rs ++ rs') = insertAllNew conflict (insertAllNew conflict t rs) rs' :=
  List.foldl_append

theorem prefix_insertAllNew (t rs : List α) : t <+: insertAllNew conflict t rs := by
  induction rs generalizing t with
  | nil => exact List.prefix_refl t
  | cons r rs ih =>
    refine List.IsPrefix.trans ?_ (ih (insertNew conflict t r))
    unfold insertNew
    split_ifs
    · exact List.prefix_refl t
    · exact List.prefix_append t [r]

theorem prefix_insertNew (t : List α) (r : α) : t <+: insertNew conflict t r :=
  prefix_insertAllNew t [r]

theorem any_insertNew {t : List α} {p : α → Bool} (r : α) (h : t.any p = true) :
    (insertNew conflict t r).any p = true := by
  unfold insertNew
  split_ifs
  · exact h
  · rw [List.any_append, h, Bool.true_or]

theorem any_insertAllNew {t : List α} {p : α → Bool} (rs : List α) (h : t.any p = true) :
    (insertAllNew conflict t rs).any p = true := by
  induction rs generalizing t with
  | nil => exact h
  | cons r rs ih => exact ih (any_insertNew r h)

/-- An element that conflicts with itself meets a conflict once it has been inserted, whether it
was taken or not. -/
theorem any_insertAllNew_of_mem {rs : List α} {r : α} (t : List α) (hr : r ∈ rs)
    (hself : conflict r r = true) : (insertAllNew conflict t rs).any (conflict r) = true := by
  induction rs generalizing t with
  | nil => simp at hr
  | cons s rs ih =>
    rcases List.mem_cons.mp hr with rfl | hr
    · apply any_insertAllNew (t := insertNew conflict t r) rs
      unfold insertNew
      split_ifs with h
      · exact h
      · simp [hself]
    · exact ih _ hr

theorem insertAllNew_of_any {t rs : List α} (h : ∀ r ∈ rs, t.any (conflict r) = true) :
    insertAllNew conflict t rs = t := by
  induction rs with
  | nil => rfl
  | cons r rs ih =>
    have hr : insertNew conflict t r = t := if_pos (h r List.mem_cons_self)
    show insertAllNew conflict (insertNew conflict t r) rs = t
    rw [hr]
    exact ih fun s hs => h s (List.mem_cons_of_mem _ hs)

/-- No two elements that were taken conflict, the later one with the earlier one. -/
theorem pairwise_insertAllNew {t : List α} (rs : List α)
    (h : t.Pairwise fun a b => conflict b a = false) :
    (insertAllNew conflict t rs).Pairwise fun a b => conflict b a = false := by
  induction rs generalizing t with
  | nil => exact h
  | cons r rs ih =>
    apply ih (t := insertNew conflict t r)
    unfold insertNew
    split_ifs with hany
    · exact h
    · apply List.pairwise_append.mpr
      refine ⟨h, List.pairwise_singleton _ r, ?_⟩
      intro a ha b hb
      rw [List.mem_singleton.mp hb]
      exact Bool.eq_false_iff.mpr fun hc => hany (List.any_eq_true.mpr ⟨a, ha, hc⟩)

theorem insertAllNew_absorb {t rs rs' : List α} (hsub : ∀ r ∈ rs', r ∈ rs)
    (hself : ∀ r ∈ rs', conflict r r = true) :
    insertAllNew conflict (insertAllNew conflict t rs) rs' = insertAllNew conflict t rs :=
  insertAllNew_of_any fun r hr => any_insertAllNew_of_mem t (hsub r hr) (hself r hr)

/-- Going back over `ys` and then on over `zs` is the same as going on over `zs`. -/
theorem insertAllNew_replay (t xs ys zs : List α) (hself : ∀ r ∈ ys, conflict r r = true) :
    insertAllNew conflict (insertAllNew conflict t (xs ++ ys)) (ys ++ zs) =
      insertAllNew conflict t (xs ++ ys ++ zs) := by
  have hsub : ∀ r ∈ ys, r ∈ xs ++ ys := fun r hr => List.mem_append_right _ hr
  rw [insertAllNew_append, insertAllNew_absorb hsub hself, ← insertAllNew_append]

/-- With conflicts between equal keys a lookup by key finds the first element of its key, whether
it was there before or was inserted. -/
theorem find?_insertAllNew {κ : Type} [DecidableEq κ] (key : α → κ) (t rs : List α) (k : κ) :
    (insertAllNew (fun r s => decide (key s = key r)) t rs).find? (fun r => key r = k) =
      (t ++ rs).find? fun r => key r = k := by
  induction rs generalizing t with
  | nil =>
    rw [List.append_nil]
    rfl
  | cons r rs ih =>
    show (insertAllNew _ (insertNew _ t r) rs).find? _ = _
    rw [ih]
    unfold insertNew
    split_ifs with hany
    · -- an element of the key of `r` stands before it
      rw [List.find?_append, List.find?_append, List.find?_cons]
      split
      · rename_i hk
        obtain ⟨s, hs, hkey⟩ := List.any_eq_true.mp hany
        have hsome : (t.find? fun r => key r = k).isSome := by
          rw [List.find?_isSome]
          refine ⟨s, hs, ?_⟩
          rw [decide_eq_true_eq] at hk hkey ⊢
          exact hkey.trans hk
        rw [Option.or_of_isSome hsome, Option.or_of_isSome hsome]
      · rfl
    · rw [List.append_assoc, List.singleton_append]

theorem mem_insertAllNew_iff {κ : Type} [DecidableEq κ] (key : α → κ) (rs : List α) :
    (∀ r ∈ rs, r ∈ insertAllNew (fun r s => decide (key s = key r)) [] rs) ↔
      ∀ r ∈ rs, ∀ s ∈ rs, key r = key s → r = s := by
  constructor
  · intro h r hr s hs hkey
    have hapart : (insertAllNew (fun r s => decide (key s = key r)) [] rs).Pairwise
        fun a b => decide (key a = key b) = false := pairwise_insertAllNew rs List.Pairwise.nil
    have hkeys : ((insertAllNew (fun r s => decide (key s = key r)) [] rs).map key).Nodup :=
      List.pairwise_map.mpr (hapart.imp of_decide_eq_false)
    exact List.inj_on_of_nodup_map hkeys (h r hr) (h s hs) hkey
  · intro h r hr
    have hfind := find?_insertAllNew key [] rs (key r)
    rw [List.nil_append] at hfind
    cases hfirst : rs.find? (fun s => key s = key r) with
    | none => exact absurd (decide_eq_true rfl) (List.find?_eq_none.mp hfirst r hr)
    | some s =>
      have hkey := List.find?_some hfirst
      rw [decide_eq_true_eq] at hkey
      have hs : s = r := h s (List.mem_of_find?_eq_some hfirst) r hr hkey
      rw [hfirst, hs] at hfind
      exact List.mem_of_find?_eq_some hfind

end FirstWins
