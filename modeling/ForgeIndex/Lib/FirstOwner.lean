import Mathlib.Logic.Basic
import Mathlib.Data.List.Basic

/-!
# A query cache that stores each item once

Items are stored under the key of the query that brought them in, and an item that is there
already is not stored again.  A query with an empty answer stores a marker in place of an item.
A later query with a stored key is answered from what is stored under its key.
-/

namespace FirstOwner

open Classical

variable {Q K I : Type}

/-- Queries, what they select, and their cache keys. -/
structure Source (Q K I : Type) where
  key : Q → K
  sel : Q → I → Prop

/-- What a query stores: the items it selects, or the marker `none`. -/
def Source.picks (s : Source Q K I) (q : Q) : Option I → Prop
  | none => ∀ i, ¬s.sel q i
  | some i => s.sel q i

/-- The key under which an item is stored. -/
abbrev Store (K I : Type) := Option I → Option K

/-- The cache has an answer for the key. -/
def Store.Hit (t : Store K I) (k : K) : Prop := ∃ x, t x = some k

noncomputable def Store.put (s : Source Q K I) (t : Store K I) (q : Q) : Store K I := fun x =>
  (t x).or (if s.picks q x then some (s.key q) else none)

/-- The answer to a query and the store after it. -/
noncomputable def step (s : Source Q K I) (t : Store K I) (q : Q) : (I → Prop) × Store K I :=
  if t.Hit (s.key q) then (fun i => t (some i) = some (s.key q), t)
  else (s.sel q, t.put s q)

/-- The key of the first query that selects the item (for the marker: whose answer is empty). -/
noncomputable def owner (s : Source Q K I) (qs : List Q) : Store K I := fun x =>
  (qs.find? fun q => decide (s.picks q x)).map s.key

/-- What is stored under the key of the query after the queries of `past`, if anything, is what
the query selects. -/
def Clean (s : Source Q K I) (past : List Q) (q : Q) : Prop :=
  (owner s past).Hit (s.key q) → ∀ i, owner s past (some i) = some (s.key q) ↔ s.sel q i

theorem owner_append_singleton (s : Source Q K I) (past : List Q) (q : Q) :
    owner s (past ++ [q]) = (owner s past).put s q := by
  funext x
  unfold owner Store.put
  dsimp only
  rw [List.find?_append]
  cases past.find? fun q => decide (s.picks q x) with
  | some q' => rfl
  | none =>
    by_cases hx : s.picks q x <;> simp [hx]

variable {s : Source Q K I} {past : List Q} {q : Q}

theorem step_answer_iff : (step s (owner s past) q).1 = s.sel q ↔ Clean s past q := by
  unfold step Clean
  split_ifs with hhit
  · constructor
    · intro h _ i
      exact iff_of_eq (congrFun h i)
    · intro h
      funext i
      exact propext (h hhit i)
  · exact ⟨fun _ h => absurd h hhit, fun _ => rfl⟩

theorem step_store (h : (step s (owner s past) q).1 = s.sel q) :
    (step s (owner s past) q).2 = owner s (past ++ [q]) := by
  rw [owner_append_singleton]
  have hclean := step_answer_iff.mp h
  unfold step
  split_ifs with hhit
  · -- all that the query selects is stored already
    have hall := hclean hhit
    funext x
    show owner s past x = (owner s past).put s q x
    unfold Store.put
    cases hx : owner s past x with
    | some k => rfl
    | none =>
      have hno : ¬s.picks q x := by
        intro hpick
        cases x with
        | some i =>
          have hown := (hall i).mpr hpick
          rw [hx] at hown
          cases hown
        | none =>
          obtain ⟨y, hy⟩ := hhit
          cases y with
          | none =>
            rw [hx] at hy
            cases hy
          | some i => exact hpick i ((hall i).mp hy)
      simp [hno]
  · rfl

end FirstOwner
