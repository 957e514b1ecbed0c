import Mathlib.Data.List.Duplicate
import Mathlib.Data.List.Induction
import Mathlib.Data.List.Nodup
import Mathlib.Logic.Function.Basic

/-!
# Tables and buckets filled from a list

A table keeps one entry for each key, the last one that came; a bucket keeps every entry of its
key.  No entry is lost and none comes twice exactly when the keys are distinct.
-/

namespace Filling

variable {ε κ ι : Type} [DecidableEq κ] [DecidableEq ι]

/-- A later entry takes the place of an earlier one. -/
def table (key : ε → κ) (es : List ε) : κ → Option ε :=
  es.foldl (fun t e => Function.update t (key e) (some e)) fun _ => none

/-- Each entry goes to the end of its bucket. -/
def buckets (key : ε → ι) (es : List ε) : ι → List ε :=
  es.foldl (fun b e => Function.update b (key e) (b (key e) ++ [e])) fun _ => []

theorem table_append_singleton (key : ε → κ) (es : List ε) (e : ε) :
    table key (es ++ [e]) = Function.update (table key es) (key e) (some e) := by
  unfold table
  rw [List.foldl_append]
  rfl

theorem buckets_append_singleton (key : ε → ι) (es : List ε) (e : ε) :
    buckets key (es ++ [e]) =
      Function.update (buckets key es) (key e) (buckets key es (key e) ++ [e]) := by
  unfold buckets
  rw [List.foldl_append]
  rfl

theorem table_apply (key : ε → κ) (es : List ε) (k : κ) :
    table key es k = es.reverse.find? fun e => key e = k := by
  induction es using List.reverseRecOn with
  | nil => rfl
  | append_singleton es e ih =>
    rw [table_append_singleton, List.reverse_append, List.reverse_singleton, List.singleton_append,
      List.find?_cons]
    by_cases he : key e = k
    · subst he
      simp
    · rw [Function.update_of_ne (Ne.symm he), ih]
      simp [he]

theorem buckets_apply (key : ε → ι) (es : List ε) (k : ι) :
    buckets key es k = es.filter fun e => key e = k := by
  induction es using List.reverseRecOn with
  | nil => rfl
  | append_singleton es e ih =>
    rw [buckets_append_singleton, List.filter_append]
    by_cases he : key e = k
    · subst he
      rw [Function.update_self, ih]
      simp
    · rw [Function.update_of_ne (Ne.symm he), ih]
      simp [he]

theorem mem_of_table {key : ε → κ} {es : List ε} {k : κ} {e : ε} (h : table key es k = some e) :
    e ∈ es ∧ key e = k := by
  rw [table_apply] at h
  have hkey := List.find?_some h
  exact ⟨List.mem_reverse.mp (List.mem_of_find?_eq_some h), by simpa using hkey⟩

theorem exists_of_mem (key : ε → κ) {es : List ε} {e : ε} (he : e ∈ es) :
    ∃ e', table key es (key e) = some e' := by
  rw [table_apply]
  cases hfind : es.reverse.find? fun e' => key e' = key e with
  | some e' => exact ⟨e', rfl⟩
  | none =>
    have hnone := List.find?_eq_none.mp hfind e (List.mem_reverse.mpr he)
    simp at hnone

theorem table_of_mem {key : ε → κ} {es : List ε} (hnodup : (es.map key).Nodup) {e : ε}
    (he : e ∈ es) : table key es (key e) = some e := by
  obtain ⟨e', htable⟩ := exists_of_mem key he
  obtain ⟨he', hkey⟩ := mem_of_table htable
  rw [htable, List.inj_on_of_nodup_map hnodup he' he hkey]

omit [DecidableEq κ] in
theorem exists_pair_of_not_nodup {key : ε → κ} {es : List ε} (h : ¬(es.map key).Nodup) :
    ∃ a b, [a, b].Sublist es ∧ key a = key b := by
  rw [List.nodup_iff_sublist] at h
  push Not at h
  obtain ⟨k, hk⟩ := h
  obtain ⟨pair, hpair, hmap⟩ := List.sublist_map_iff.mp hk
  obtain ⟨a, b, rfl⟩ := List.length_eq_two.mp (by simpa using (congrArg List.length hmap).symm)
  simp only [List.map_cons, List.map_nil, List.cons.injEq, and_true] at hmap
  exact ⟨a, b, hpair, hmap.1.symm.trans hmap.2⟩

/-- Each entry is found under its key and stands once in its bucket exactly when the keys are
distinct. -/
theorem found_once_iff (key : ε → κ) (shelf : ε → ι) (es : List ε) :
    (∀ e ∈ es, table key es (key e) = some e ∧ ¬List.Duplicate e (buckets shelf es (shelf e))) ↔
      (es.map key).Nodup := by
  constructor
  · intro h
    by_contra hdup
    obtain ⟨a, b, hpair, hkey⟩ := exists_pair_of_not_nodup hdup
    have ha : a ∈ es := hpair.subset List.mem_cons_self
    have hb : b ∈ es := hpair.subset (List.mem_cons_of_mem _ List.mem_cons_self)
    obtain ⟨hfound, honce⟩ := h a ha
    -- one key holds one entry, so both places hold the same
    have hab : b = a := by
      rw [hkey, (h b hb).1] at hfound
      exact Option.some.inj hfound
    subst hab
    apply honce
    rw [List.duplicate_iff_sublist, buckets_apply]
    have hfilter := hpair.filter fun e => decide (shelf e = shelf b)
    simpa using hfilter
  · intro hnodup e he
    refine ⟨table_of_mem hnodup he, ?_⟩
    rw [buckets_apply, List.duplicate_iff_sublist]
    intro hsub
    have hmap := (hsub.trans List.filter_sublist).map key
    exact List.nodup_iff_sublist.mp hnodup (key e) hmap

end Filling
