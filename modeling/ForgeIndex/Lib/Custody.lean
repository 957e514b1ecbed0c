import Mathlib.Data.List.Nodup
import Mathlib.Data.List.Flatten

/-!
# Things in one place each

Lists of holders, each with a list of things, where no thing is held twice.
-/

namespace Custody

variable {α β : Type}

theorem perm_flatMap_set {l : List β} {k : ℕ} {y : β} (h : l[k]? = some y) (x : β)
    (f : β → List α) :
    ∃ rest, (l.flatMap f).Perm (f y ++ rest) ∧ ((l.set k x).flatMap f).Perm (f x ++ rest) := by
  obtain ⟨hk, hy⟩ := List.getElem?_eq_some_iff.mp h
  have hmove (pre post : List β) (z : β) :
      ((pre ++ z :: post).flatMap f).Perm (f z ++ (pre ++ post).flatMap f) := by
    rw [List.flatMap_append, List.flatMap_cons, List.flatMap_append, ← List.append_assoc,
      ← List.append_assoc]
    exact List.perm_append_comm.append_right _
  refine ⟨(l.take k ++ l.drop (k + 1)).flatMap f, ?_, ?_⟩
  · have hsplit : l = l.take k ++ y :: l.drop (k + 1) := by
      rw [← hy, List.getElem_cons_drop, List.take_append_drop]
    have hwhole := hmove (l.take k) (l.drop (k + 1)) y
    rw [← hsplit] at hwhole
    exact hwhole
  · rw [List.set_eq_take_append_cons_drop, if_pos hk]
    exact hmove _ _ x

theorem existsUnique_holder {l : List β} {f : β → List α} {a : α} (hnodup : (l.flatMap f).Nodup)
    (ha : a ∈ l.flatMap f) : ∃! k : ℕ, ∃ x : β, l[k]? = some x ∧ a ∈ f x := by
  obtain ⟨x, hx, hax⟩ := List.mem_flatMap.mp ha
  obtain ⟨k, hk⟩ := List.getElem?_of_mem hx
  refine ⟨k, ⟨x, hk, hax⟩, ?_⟩
  rintro j ⟨y, hj, hay⟩
  have hpair := List.pairwise_iff_getElem.mp (List.nodup_flatMap.mp hnodup).2
  obtain ⟨hk', rfl⟩ := List.getElem?_eq_some_iff.mp hk
  obtain ⟨hj', rfl⟩ := List.getElem?_eq_some_iff.mp hj
  rcases Nat.lt_trichotomy j k with hlt | heq | hlt
  · exact absurd hax (hpair j k hj' hk' hlt hay)
  · exact heq
  · exact absurd hay (hpair k j hk' hj' hlt hax)

/-- A thing of a collection without repetition that is spread over three lists is in one of them,
once. -/
theorem one_of_three [DecidableEq α] {xs ys zs all : List α} {a : α}
    (hperm : (xs ++ ys ++ zs).Perm all) (hnodup : all.Nodup) (ha : a ∈ all) :
    (xs.count a = 1 ∧ ys.count a = 0 ∧ zs.count a = 0) ∨
      (xs.count a = 0 ∧ ys.count a = 1 ∧ zs.count a = 0) ∨
      (xs.count a = 0 ∧ ys.count a = 0 ∧ zs.count a = 1) := by
  have hone : all.count a = 1 := List.count_eq_one_of_mem hnodup ha
  have hsum := hperm.count_eq a
  rw [List.count_append, List.count_append, hone] at hsum
  omega

end Custody
