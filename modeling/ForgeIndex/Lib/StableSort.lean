import Mathlib.Data.List.Sort

/-!
# Stable sorting

A total preorder ties some elements.  Insertion sort keeps the order of tied elements, and a sorted
list is determined by the order of its tied elements.
-/

namespace List

variable {α : Type} (r : α → α → Prop) [DecidableRel r]

/-- The order does not tell the two apart. -/
def tied (a b : α) : Bool := decide (r a b) && decide (r b a)

variable {r}

theorem tied_iff {a b : α} : tied r a b = true ↔ r a b ∧ r b a := by
  unfold tied
  rw [Bool.and_eq_true, decide_eq_true_eq, decide_eq_true_eq]

theorem filter_tied_insertionSort [IsTrans α r] (l : List α) (a : α) :
    (l.insertionSort r).filter (tied r a) = l.filter (tied r a) := by
  have htied : (l.filter (tied r a)).Pairwise r := by
    apply List.pairwise_of_forall_mem_list
    intro b hb c hc
    have hab := (tied_iff.mp (List.mem_filter.mp hb).2).2
    have hac := (tied_iff.mp (List.mem_filter.mp hc).2).1
    exact IsTrans.trans b a c hab hac
  have hsub : l.filter (tied r a) <+ l.insertionSort r :=
    List.sublist_insertionSort htied List.filter_sublist
  have hfilter := hsub.filter (tied r a)
  rw [List.filter_filter] at hfilter
  simp only [Bool.and_self] at hfilter
  have hlen := ((List.perm_insertionSort r l).filter (tied r a)).length_eq
  exact (hfilter.eq_of_length hlen.symm).symm

variable [Std.Total r]

theorem tied_self (a : α) : tied r a a = true := by
  have hself : r a a := (Std.Total.total a a).elim id id
  exact tied_iff.mpr ⟨hself, hself⟩

theorem eq_of_filter_tied {l l' : List α} (h : l.Pairwise r) (h' : l'.Pairwise r)
    (heq : ∀ a, l.filter (tied r a) = l'.filter (tied r a)) : l = l' := by
  have hmem {l l' : List α} (heq : ∀ a, l.filter (tied r a) = l'.filter (tied r a)) {a : α}
      (ha : a ∈ l) : a ∈ l' := by
    have hin : a ∈ l.filter (tied r a) := List.mem_filter.mpr ⟨ha, tied_self a⟩
    rw [heq] at hin
    exact (List.mem_filter.mp hin).1
  induction l generalizing l' with
  | nil =>
    cases l' with
    | nil => rfl
    | cons b l' => exact absurd (hmem (fun a => (heq a).symm) List.mem_cons_self) (by simp)
  | cons a l ih =>
    cases l' with
    | nil => exact absurd (hmem heq List.mem_cons_self) (by simp)
    | cons b l' =>
      obtain ⟨ha, hl⟩ := List.pairwise_cons.mp h
      obtain ⟨hb, hl'⟩ := List.pairwise_cons.mp h'
      have hab : r a b := by
        rcases List.mem_cons.mp (hmem (fun a => (heq a).symm) List.mem_cons_self) with hba | hba
        · rw [hba]
          exact (tied_iff.mp (tied_self a)).1
        · exact ha b hba
      have hba : r b a := by
        rcases List.mem_cons.mp (hmem heq List.mem_cons_self) with hab | hab
        · rw [hab]
          exact (tied_iff.mp (tied_self b)).1
        · exact hb a hab
      have hhead := heq a
      rw [List.filter_cons_of_pos (tied_self a),
        List.filter_cons_of_pos (tied_iff.mpr ⟨hab, hba⟩)] at hhead
      have hsame : a = b := (List.cons.inj hhead).1
      subst hsame
      rw [ih hl hl']
      intro c
      have hc := heq c
      by_cases hca : tied r c a = true
      · rw [List.filter_cons_of_pos hca, List.filter_cons_of_pos hca] at hc
        exact (List.cons.inj hc).2
      · rwa [List.filter_cons_of_neg hca, List.filter_cons_of_neg hca] at hc

end List
