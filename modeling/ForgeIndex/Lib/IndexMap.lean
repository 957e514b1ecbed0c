import Mathlib.Data.List.Nodup
import Mathlib.Data.List.Basic

/-!
# Maps with an iteration order

A map kept as the list of its entries.  Inserting under a key that is there replaces the value
in place; a new key goes to the end.
-/

/-- Entries in iteration order, no key twice. -/
structure IndexMap (κ ν : Type) where
  entries : List (κ × ν)
  nodup : (entries.map Prod.fst).Nodup

namespace IndexMap

variable {κ ν : Type}

def empty : IndexMap κ ν := ⟨[], List.nodup_nil⟩

def keys (m : IndexMap κ ν) : List κ := m.entries.map Prod.fst

theorem ext_entries {m m' : IndexMap κ ν} (h : m.entries = m'.entries) : m = m' := by
  cases m
  cases m'
  congr

variable [DecidableEq κ]

def get (m : IndexMap κ ν) (k : κ) : Option ν := m.entries.lookup k

/-- Replace the value of a key that is there, else append. -/
def insertEntry (k : κ) (v : ν) : List (κ × ν) → List (κ × ν)
  | [] => [(k, v)]
  | e :: es => if e.1 = k then (k, v) :: es else e :: insertEntry k v es

theorem fst_insertEntry (k : κ) (v : ν) (es : List (κ × ν)) :
    (insertEntry k v es).map Prod.fst =
      if k ∈ es.map Prod.fst then es.map Prod.fst else es.map Prod.fst ++ [k] := by
  induction es with
  | nil => rfl
  | cons e es ih =>
    by_cases he : e.1 = k
    · simp [insertEntry, he]
    · have he' : ¬k = e.1 := fun h => he h.symm
      by_cases hk : k ∈ es.map Prod.fst
      · simp only [insertEntry, if_neg he, List.map_cons, ih, if_pos hk,
          if_pos (List.mem_cons_of_mem _ hk)]
      · have hk' : k ∉ e.1 :: es.map Prod.fst := by
          rw [List.mem_cons]
          exact fun h => h.elim he' hk
        simp only [insertEntry, if_neg he, List.map_cons, ih, if_neg hk, if_neg hk',
          List.cons_append]

theorem nodup_insertEntry {es : List (κ × ν)} (h : (es.map Prod.fst).Nodup) (k : κ) (v : ν) :
    ((insertEntry k v es).map Prod.fst).Nodup := by
  rw [fst_insertEntry]
  split_ifs with hk
  · exact h
  · exact List.nodup_append.mpr ⟨h, List.nodup_singleton k, by
      intro a ha b hb
      rw [List.mem_singleton.mp hb]
      rintro rfl
      exact hk ha⟩

def insert (m : IndexMap κ ν) (k : κ) (v : ν) : IndexMap κ ν :=
  ⟨insertEntry k v m.entries, nodup_insertEntry m.nodup k v⟩

theorem lookup_insertEntry (k k' : κ) (v : ν) (es : List (κ × ν)) :
    (insertEntry k v es).lookup k' = if k' = k then some v else es.lookup k' := by
  induction es with
  | nil =>
    by_cases h : k' = k
    · simp [insertEntry, h]
    · have hb : (k' == k) = false := by simpa using h
      simp [insertEntry, List.lookup_cons, h, hb]
  | cons e es ih =>
    obtain ⟨a, b⟩ := e
    by_cases he : a = k
    · subst he
      by_cases hk : k' = a
      · simp [insertEntry, hk]
      · have hb : (k' == a) = false := by simpa using hk
        simp [insertEntry, List.lookup_cons, hk, hb]
    · by_cases hk : k' = a
      · subst hk
        simp [insertEntry, he]
      · have hb : (k' == a) = false := by simpa using hk
        simp [insertEntry, if_neg he, List.lookup_cons, hb, ih]

@[simp] theorem get_empty (k : κ) : (empty : IndexMap κ ν).get k = none := rfl

theorem get_insert (m : IndexMap κ ν) (k k' : κ) (v : ν) :
    (m.insert k v).get k' = if k' = k then some v else m.get k' :=
  lookup_insertEntry k k' v m.entries

@[simp] theorem get_insert_self (m : IndexMap κ ν) (k : κ) (v : ν) :
    (m.insert k v).get k = some v := by simp [get_insert]

theorem insertEntry_of_not_mem {k : κ} {es : List (κ × ν)} (h : k ∉ es.map Prod.fst) (v : ν) :
    insertEntry k v es = es ++ [(k, v)] := by
  induction es with
  | nil => rfl
  | cons e es ih =>
    rw [List.map_cons, List.mem_cons, not_or] at h
    have he : e.1 ≠ k := fun h' => h.1 h'.symm
    simp [insertEntry, he, ih h.2]

theorem insertEntry_insertEntry (k : κ) (v v' : ν) (es : List (κ × ν)) :
    insertEntry k v' (insertEntry k v es) = insertEntry k v' es := by
  induction es with
  | nil => simp [insertEntry]
  | cons e es ih =>
    by_cases he : e.1 = k <;> simp [insertEntry, he, ih]

theorem insert_insert_self (m : IndexMap κ ν) (k : κ) (v v' : ν) :
    (m.insert k v).insert k v' = m.insert k v' :=
  ext_entries (insertEntry_insertEntry k v v' m.entries)

theorem entries_insert {m : IndexMap κ ν} {k : κ} (h : k ∉ m.keys) (v : ν) :
    (m.insert k v).entries = m.entries ++ [(k, v)] := insertEntry_of_not_mem h v

theorem mem_keys_iff (m : IndexMap κ ν) (k : κ) : k ∈ m.keys ↔ (m.get k).isSome := by
  have h (es : List (κ × ν)) : k ∈ es.map Prod.fst ↔ (es.lookup k).isSome := by
    induction es with
    | nil => simp
    | cons e es ih =>
      obtain ⟨a, b⟩ := e
      by_cases he : k = a
      · simp [he]
      · have hb : (k == a) = false := by simpa using he
        simp only [List.map_cons, List.mem_cons, List.lookup_cons, hb, he, false_or]
        exact ih
  exact h m.entries

theorem mem_keys_insert (m : IndexMap κ ν) (k k' : κ) (v : ν) :
    k' ∈ (m.insert k v).keys ↔ k' = k ∨ k' ∈ m.keys := by
  rw [mem_keys_iff, mem_keys_iff, get_insert]
  by_cases h : k' = k <;> simp [h]

def insertAll (m : IndexMap κ ν) (es : List (κ × ν)) : IndexMap κ ν :=
  es.foldl (fun m e => m.insert e.1 e.2) m

theorem length_insert (m : IndexMap κ ν) (k : κ) (v : ν) :
    (m.insert k v).entries.length = if k ∈ m.keys then m.entries.length
      else m.entries.length + 1 := by
  have hfst := congrArg List.length (fst_insertEntry k v m.entries)
  rw [List.length_map] at hfst
  show (insertEntry k v m.entries).length = _
  rw [hfst]
  unfold keys
  split_ifs <;> simp

theorem length_insertAll_le (m : IndexMap κ ν) (es : List (κ × ν)) :
    (m.insertAll es).entries.length ≤ m.entries.length + es.length := by
  induction es generalizing m with
  | nil => exact Nat.le_refl _
  | cons e es ih =>
    have hstep := length_insert m e.1 e.2
    have hrest := ih (m.insert e.1 e.2)
    show ((m.insert e.1 e.2).insertAll es).entries.length ≤ _
    rw [List.length_cons]
    split_ifs at hstep <;> omega

/-- Distinct keys that are not there yet are kept with their values, in their order. -/
theorem entries_insertAll {m : IndexMap κ ν} {es : List (κ × ν)} (hnodup : (es.map Prod.fst).Nodup)
    (hfresh : ∀ e ∈ es, e.1 ∉ m.keys) : (m.insertAll es).entries = m.entries ++ es := by
  induction es generalizing m with
  | nil => exact (List.append_nil _).symm
  | cons e es ih =>
    obtain ⟨hnew, hnodup⟩ := List.nodup_cons.mp hnodup
    have he : e.1 ∉ m.keys := hfresh e List.mem_cons_self
    have hrest : ∀ e' ∈ es, e'.1 ∉ (m.insert e.1 e.2).keys := by
      intro e' he' hmem
      rw [mem_keys_insert] at hmem
      rcases hmem with heq | hmem
      · exact hnew (heq ▸ List.mem_map_of_mem he')
      · exact hfresh e' (List.mem_cons_of_mem _ he') hmem
    show ((m.insert e.1 e.2).insertAll es).entries = _
    rw [ih hnodup hrest, entries_insert he, List.append_assoc]
    rfl

theorem length_insertAll_lt {m : IndexMap κ ν} {es : List (κ × ν)}
    (h : ¬((es.map Prod.fst).Nodup ∧ ∀ e ∈ es, e.1 ∉ m.keys)) :
    (m.insertAll es).entries.length < m.entries.length + es.length := by
  induction es generalizing m with
  | nil => exact absurd ⟨List.nodup_nil, by simp⟩ h
  | cons e es ih =>
    have hstep := length_insert m e.1 e.2
    show ((m.insert e.1 e.2).insertAll es).entries.length < _
    rw [List.length_cons]
    by_cases he : e.1 ∈ m.keys
    · have hle := length_insertAll_le (m.insert e.1 e.2) es
      rw [if_pos he] at hstep
      omega
    · rw [if_neg he] at hstep
      have hrest : ¬((es.map Prod.fst).Nodup ∧ ∀ e' ∈ es, e'.1 ∉ (m.insert e.1 e.2).keys) := by
        rintro ⟨hnodup, hfresh⟩
        apply h
        constructor
        · refine List.nodup_cons.mpr ⟨fun hmem => ?_, hnodup⟩
          obtain ⟨e', he', heq⟩ := List.mem_map.mp hmem
          exact hfresh e' he' ((mem_keys_insert m e.1 e'.1 e.2).mpr (.inl heq))
        · intro e' he' hmem
          rcases List.mem_cons.mp he' with rfl | he'
          · exact he hmem
          · exact hfresh e' he' ((mem_keys_insert m e.1 e'.1 e.2).mpr (.inr hmem))
      have hlt := ih hrest
      omega

end IndexMap
