import Mathlib.Data.List.Induction
import Mathlib.Data.List.Nodup
import Mathlib.Data.List.Pairwise
import Mathlib.Order.Lattice
import Mathlib.Tactic.Common

/-!
# Maps in the order of their keys

The entries of a map that is ordered by its keys, each with a value; an entry is put where its key
belongs and takes the place of one with this key.
-/

namespace SortedMap

variable {κ ν : Type}

/-- Each key is less than those behind it. -/
def Sorted [LT κ] (es : List (κ × ν)) : Prop := (es.map Prod.fst).Pairwise (· < ·)

section Insert

variable [LinearOrder κ]

def insert (k : κ) (v : ν) : List (κ × ν) → List (κ × ν)
  | [] => [(k, v)]
  | e :: es =>
    if k < e.1 then (k, v) :: e :: es
    else if k = e.1 then (k, v) :: es
    else e :: insert k v es

/-- A map of entries that come one after the other. -/
def collect (es : List (κ × ν)) : List (κ × ν) := es.foldl (fun m e => insert e.1 e.2 m) []

theorem insert_last {k : κ} {es : List (κ × ν)} (h : ∀ e ∈ es, e.1 < k) (v : ν) :
    insert k v es = es ++ [(k, v)] := by
  induction es with
  | nil => rfl
  | cons e es ih =>
    have he := h e List.mem_cons_self
    rw [insert, if_neg (not_lt_of_gt he), if_neg (ne_of_gt he),
      ih fun e he => h e (List.mem_cons_of_mem _ he)]
    rfl

theorem mem_keys_insert {k k' : κ} {v : ν} {es : List (κ × ν)}
    (h : k' ∈ (insert k v es).map Prod.fst) : k' = k ∨ k' ∈ es.map Prod.fst := by
  induction es with
  | nil => exact .inl (List.mem_singleton.mp h)
  | cons e es ih =>
    rw [insert] at h
    split_ifs at h with hlt heq
    · exact List.mem_cons.mp h
    · rcases List.mem_cons.mp h with hk | hrest
      · exact .inl hk
      · exact .inr (List.mem_cons_of_mem _ hrest)
    · rcases List.mem_cons.mp h with hk | hrest
      · exact .inr (hk ▸ List.mem_cons_self)
      · exact (ih hrest).imp id (List.mem_cons_of_mem _)

theorem Sorted.insert {es : List (κ × ν)} (h : Sorted es) (k : κ) (v : ν) :
    Sorted (insert k v es) := by
  induction es with
  | nil => exact List.pairwise_singleton _ _
  | cons e es ih =>
    obtain ⟨hfirst, hrest⟩ := List.pairwise_cons.mp h
    rw [SortedMap.insert]
    split_ifs with hlt heq
    · apply List.pairwise_cons.mpr
      refine ⟨?_, h⟩
      intro k' hk'
      rcases List.mem_cons.mp hk' with hk' | hk'
      · rw [hk']
        exact hlt
      · exact hlt.trans (hfirst k' hk')
    · apply List.pairwise_cons.mpr
      subst heq
      exact ⟨hfirst, hrest⟩
    · apply List.pairwise_cons.mpr
      refine ⟨?_, ih hrest⟩
      intro k' hk'
      rcases mem_keys_insert hk' with hk' | hk'
      · rw [hk']
        exact lt_of_le_of_ne (le_of_not_gt hlt) (Ne.symm heq)
      · exact hfirst k' hk'

theorem sorted_collect (es : List (κ × ν)) : Sorted (collect es) := by
  have hfold (m : List (κ × ν)) (hm : Sorted m) :
      Sorted (es.foldl (fun m e => SortedMap.insert e.1 e.2 m) m) := by
    induction es generalizing m with
    | nil => exact hm
    | cons e es ih => exact ih _ (hm.insert e.1 e.2)
  exact hfold [] List.Pairwise.nil

theorem lookup_cons_eq_ite (e : κ × ν) (es : List (κ × ν)) (k : κ) :
    (e :: es).lookup k = if k = e.1 then some e.2 else es.lookup k := by
  obtain ⟨k', v⟩ := e
  by_cases hk : k = k'
  · rw [if_pos hk, List.lookup_cons, beq_iff_eq.mpr hk]
  · rw [if_neg hk, List.lookup_cons, beq_eq_false_iff_ne.mpr hk]

theorem lookup_insert (k k' : κ) (v : ν) (es : List (κ × ν)) :
    (insert k v es).lookup k' = if k' = k then some v else es.lookup k' := by
  induction es with
  | nil => exact lookup_cons_eq_ite (k, v) [] k'
  | cons e es ih =>
    rw [insert]
    by_cases hlt : k < e.1
    · rw [if_pos hlt]
      exact lookup_cons_eq_ite (k, v) (e :: es) k'
    rw [if_neg hlt]
    by_cases heq : k = e.1
    · rw [if_pos heq, lookup_cons_eq_ite, lookup_cons_eq_ite]
      by_cases hk : k' = k
      · rw [if_pos hk, if_pos hk]
      · rw [if_neg hk, if_neg hk, if_neg fun he => hk (he.trans heq.symm)]
    · rw [if_neg heq, lookup_cons_eq_ite, lookup_cons_eq_ite, ih]
      by_cases hk : k' = e.1
      · rw [if_pos hk, if_pos hk, if_neg fun h => heq (h.symm.trans hk)]
      · rw [if_neg hk, if_neg hk]

theorem lookup_collect (es : List (κ × ν)) (k : κ) :
    (collect es).lookup k = es.reverse.lookup k := by
  induction es using List.reverseRecOn with
  | nil => rfl
  | append_singleton es e ih =>
    unfold collect
    rw [List.foldl_append, List.reverse_append]
    show (insert e.1 e.2 (collect es)).lookup k = (e :: es.reverse).lookup k
    rw [lookup_insert, lookup_cons_eq_ite, ih]

theorem collect_of_sorted {es : List (κ × ν)} (h : Sorted es) : collect es = es := by
  have hfold (m : List (κ × ν)) (hm : Sorted (m ++ es)) :
      es.foldl (fun m e => insert e.1 e.2 m) m = m ++ es := by
    induction es generalizing m with
    | nil => exact (List.append_nil m).symm
    | cons e es ih =>
      have hbelow : ∀ e' ∈ m, e'.1 < e.1 := by
        intro e' he'
        unfold Sorted at hm
        rw [List.map_append, List.pairwise_append] at hm
        exact hm.2.2 e'.1 (List.mem_map_of_mem he') e.1 List.mem_cons_self
      have happend : m ++ e :: es = m ++ [e] ++ es := (List.append_cons m e es)
      rw [List.foldl_cons, insert_last hbelow, happend]
      rw [happend] at hm
      exact ih (List.pairwise_cons.mp h).2 (m ++ [e]) hm
  exact hfold [] h

end Insert

theorem mergeSort_eq_of_perm {α : Type} {le : α → α → Bool} {l l' : List α}
    (htrans : ∀ a b c, le a b → le b c → le a c) (htotal : ∀ a b, le a b || le b a)
    (hanti : ∀ a b, a ∈ l → b ∈ l → le a b → le b a → a = b) (h : l.Perm l') :
    l.mergeSort le = l'.mergeSort le := by
  have hperm : (l.mergeSort le).Perm (l'.mergeSort le) :=
    (List.mergeSort_perm l le).trans (h.trans (List.mergeSort_perm l' le).symm)
  apply List.Perm.eq_of_pairwise _ (List.pairwise_mergeSort htrans htotal l)
    (List.pairwise_mergeSort htrans htotal l') hperm
  intro a b ha hb hab hba
  exact hanti a b (List.mem_mergeSort.mp ha) (h.mem_iff.mpr (List.mem_mergeSort.mp hb)) hab hba

theorem mergeSort_entries_eq [LinearOrder κ] {es es' : List (κ × ν)}
    (hkeys : (es.map Prod.fst).Nodup) (h : es.Perm es') :
    es.mergeSort (fun a b => decide (a.1 ≤ b.1)) = es'.mergeSort fun a b => decide (a.1 ≤ b.1) := by
  apply mergeSort_eq_of_perm _ _ _ h
  · intro a b c hab hbc
    exact decide_eq_true (le_trans (of_decide_eq_true hab) (of_decide_eq_true hbc))
  · intro a b
    simpa using le_total a.1 b.1
  · intro a b ha hb hab hba
    have hkey : a.1 = b.1 := le_antisymm (of_decide_eq_true hab) (of_decide_eq_true hba)
    exact List.inj_on_of_nodup_map hkeys ha hb hkey

theorem Sorted.nodup [Preorder κ] {es : List (κ × ν)} (h : Sorted es) :
    (es.map Prod.fst).Nodup := h.imp ne_of_lt

end SortedMap
