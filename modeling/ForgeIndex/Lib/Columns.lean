import Mathlib.Algebra.BigOperators.Group.List.Lemmas
import Mathlib.Algebra.GroupWithZero.Nat
import Mathlib.Algebra.Order.BigOperators.Group.List
import Mathlib.Algebra.Order.Group.Nat

/-!
# Rows of different lengths, column by column

The largest entry of a column against its sum.  The two agree on a column with at most one entry,
and summed over all columns they agree only if one row at most has entries.
-/

namespace Columns

/-- The entries at place `i`, of the rows that reach so far. -/
def column (rows : List (List ℕ)) (i : ℕ) : List ℕ := rows.filterMap fun row => row[i]?

def largest (entries : List ℕ) : ℕ := entries.foldr max 0

theorem largest_cons (a : ℕ) (entries : List ℕ) : largest (a :: entries) = max a (largest entries) :=
  rfl

theorem largest_le_sum (entries : List ℕ) : largest entries ≤ entries.sum := by
  induction entries with
  | nil => exact Nat.le_refl 0
  | cons a entries ih =>
    rw [largest_cons, List.sum_cons]
    omega

theorem largest_eq_sum_iff {entries : List ℕ} (hpos : ∀ a ∈ entries, 0 < a) :
    largest entries = entries.sum ↔ entries.length ≤ 1 := by
  cases entries with
  | nil => exact iff_of_true rfl (Nat.zero_le 1)
  | cons a entries =>
    cases entries with
    | nil => exact iff_of_true (Nat.max_zero a) (Nat.le_refl 1)
    | cons b entries =>
      apply iff_of_false
      · have ha := hpos a List.mem_cons_self
        have hb := hpos b (List.mem_cons_of_mem a List.mem_cons_self)
        have hle := largest_le_sum entries
        rw [largest_cons, largest_cons, List.sum_cons, List.sum_cons]
        omega
      · rw [List.length_cons, List.length_cons]
        omega

theorem column_cons (row : List ℕ) (rows : List (List ℕ)) (i : ℕ) :
    column (row :: rows) i = row[i]?.toList ++ column rows i := by
  unfold column
  rw [List.filterMap_cons]
  cases row[i]? <;> rfl

theorem mem_of_mem_column {rows : List (List ℕ)} {i a : ℕ} (h : a ∈ column rows i) :
    ∃ row ∈ rows, a ∈ row := by
  obtain ⟨row, hrow, ha⟩ := List.mem_filterMap.mp h
  exact ⟨row, hrow, List.mem_of_getElem? ha⟩

theorem sum_getElem {row : List ℕ} {n : ℕ} (hn : row.length ≤ n) :
    ((List.range n).map fun i => row[i]?.toList.sum).sum = row.sum := by
  induction row generalizing n with
  | nil => simp
  | cons a row ih =>
    cases n with
    | zero => simp at hn
    | succ n =>
      have hrest := ih (n := n) (by rw [List.length_cons] at hn; omega)
      rw [List.range_succ_eq_map, List.map_cons, List.map_map, List.sum_cons, List.sum_cons, ← hrest]
      rfl

theorem sum_column {rows : List (List ℕ)} {n : ℕ} (hn : ∀ row ∈ rows, row.length ≤ n) :
    ((List.range n).map fun i => (column rows i).sum).sum = (rows.map List.sum).sum := by
  induction rows with
  | nil => simp [column]
  | cons row rows ih =>
    have hrow := sum_getElem (hn row List.mem_cons_self)
    have hrows := ih fun r hr => hn r (List.mem_cons_of_mem row hr)
    have hsplit : ((List.range n).map fun i => (column (row :: rows) i).sum).sum =
        ((List.range n).map fun i => row[i]?.toList.sum).sum +
          ((List.range n).map fun i => (column rows i).sum).sum := by
      rw [← List.sum_map_add]
      congr 1
      apply List.map_congr_left
      intro i _
      rw [column_cons, List.sum_append]
    rw [hsplit, hrow, hrows, List.map_cons, List.sum_cons]

theorem length_column_le (rows : List (List ℕ)) (i : ℕ) :
    (column rows i).length ≤ rows.countP fun row => !row.isEmpty := by
  induction rows with
  | nil => exact Nat.le_refl 0
  | cons row rows ih =>
    rw [column_cons, List.length_append, List.countP_cons]
    cases row with
    | nil => simpa using ih
    | cons a row =>
      have hone : ((a :: row)[i]?.toList).length ≤ 1 := by cases (a :: row)[i]? <;> simp
      simp only [List.isEmpty_cons, Bool.not_false, if_true]
      omega

theorem length_column_zero (rows : List (List ℕ)) :
    (column rows 0).length = rows.countP fun row => !row.isEmpty := by
  induction rows with
  | nil => rfl
  | cons row rows ih =>
    rw [column_cons, List.length_append, List.countP_cons, ih]
    cases row with
    | nil => simp
    | cons a row =>
      simp only [List.getElem?_cons_zero, Option.toList_some, List.length_singleton,
        List.isEmpty_cons, Bool.not_false, if_true]
      omega

theorem sum_eq_iff_of_le {f g : ℕ → ℕ} {is : List ℕ} (h : ∀ i ∈ is, f i ≤ g i) :
    (is.map f).sum = (is.map g).sum ↔ ∀ i ∈ is, f i = g i := by
  induction is with
  | nil => simp
  | cons i is ih =>
    have hi := h i List.mem_cons_self
    have his : ∀ j ∈ is, f j ≤ g j := fun j hj => h j (List.mem_cons_of_mem i hj)
    have hle : (is.map f).sum ≤ (is.map g).sum := List.sum_le_sum his
    rw [List.map_cons, List.map_cons, List.sum_cons, List.sum_cons, List.forall_mem_cons, ← ih his]
    omega

theorem sum_largest_le {rows : List (List ℕ)} {n : ℕ} (hn : ∀ row ∈ rows, row.length ≤ n) :
    ((List.range n).map fun i => largest (column rows i)).sum ≤ (rows.map List.sum).sum := by
  rw [← sum_column hn]
  exact List.sum_le_sum fun i _ => largest_le_sum (column rows i)

/-- The largest entries add up to the whole if and only if one row at most has entries. -/
theorem sum_largest_eq_iff {rows : List (List ℕ)} {n : ℕ} (hn : ∀ row ∈ rows, row.length ≤ n)
    (hpos : ∀ row ∈ rows, ∀ a ∈ row, 0 < a) :
    ((List.range n).map fun i => largest (column rows i)).sum = (rows.map List.sum).sum ↔
      (rows.countP fun row => !row.isEmpty) ≤ 1 := by
  have hcolumn : ∀ i, largest (column rows i) = (column rows i).sum ↔
      (column rows i).length ≤ 1 := by
    intro i
    apply largest_eq_sum_iff
    intro a ha
    obtain ⟨row, hrow, harow⟩ := mem_of_mem_column ha
    exact hpos row hrow a harow
  rw [← sum_column hn, sum_eq_iff_of_le fun i _ => largest_le_sum (column rows i)]
  constructor
  · intro h
    by_cases hzero : n = 0
    · -- no column at all: every row is empty
      have hempty : ∀ row ∈ rows, ¬(!row.isEmpty) = true := by
        intro row hrow
        have hlen := hn row hrow
        have hnil : row = [] := List.eq_nil_of_length_eq_zero (by omega)
        simp [hnil]
      rw [List.countP_eq_zero.mpr hempty]
      omega
    · rw [← length_column_zero]
      exact (hcolumn 0).mp (h 0 (List.mem_range.mpr (by omega)))
  · intro h i _
    exact (hcolumn i).mpr ((length_column_le rows i).trans h)

end Columns
