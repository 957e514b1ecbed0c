import Mathlib.Data.List.Perm.Basic
import Mathlib.Order.Lattice
import ForgeIndex.Lib.KeyedOps

/-!
# Undoing a log of changes in any order inside a block

A change replaces the row of one key and is logged with the operation that undoes it.  The log is
undone block by block, the last block first, but the order inside a block is arbitrary.  Changes
of different keys commute, so the order matters only among the changes that one block makes to one
key; `OrderFree` says when it does not.
-/

namespace UndoLog

open KeyedOps

variable {B K C W : Type}

@[simp] theorem assign_total (r s : C → W) : assign (fun x => some (r x)) s = r := rfl

/-- The row of a key before and after, in a block. -/
structure Change (B K C W : Type) where
  block : B
  key : K
  before : Option (C → W)
  after : Option (C → W)

namespace Change

/-- Put back the row that was there: remove what was inserted, insert what was deleted, overwrite
what was updated. -/
def undo (c : Change B K C W) : Act C W :=
  match c.before, c.after with
  | none, _ => .delete
  | some r, some _ => .update fun x => some (r x)
  | some r, none => .insert r

theorem run_undo_of_none {c : Change B K C W} (h : c.before = none) (x : Option (C → W)) :
    c.undo.run x = none := by
  simp [undo, h, Act.run]

/-- Undoing a change that found a row leaves that row, or leaves the key as it is. -/
theorem run_undo_of_some {c : Change B K C W} {r : C → W} (h : c.before = some r)
    (x : Option (C → W)) : c.undo.run x = some r ∨ c.undo.run x = x := by
  cases hafter : c.after <;> cases x <;> simp [undo, h, hafter, Act.run]

end Change

section Keyed

variable [DecidableEq K]

def applyChange (m : K → Option (C → W)) (c : Change B K C W) : K → Option (C → W) :=
  Function.update m c.key c.after

def applyAll (m : K → Option (C → W)) (cs : List (Change B K C W)) : K → Option (C → W) :=
  cs.foldl applyChange m

def undoAll (m : K → Option (C → W)) (cs : List (Change B K C W)) : K → Option (C → W) :=
  replay m (cs.map fun c => (c.key, c.undo))

/-- Each change finds the row it names and is none without a row. -/
def Follows : (K → Option (C → W)) → List (Change B K C W) → Prop
  | _, [] => True
  | m, c :: cs => m c.key = c.before ∧ (c.before.isSome ∨ c.after.isSome) ∧
      Follows (applyChange m c) cs

/-- A key that was absent is not deleted; each change of a key that was present finds the row that
was there at the start. -/
def OrderFree (m : K → Option (C → W)) (cs : List (Change B K C W)) : Prop :=
  ∀ c ∈ cs, match m c.key with
    | none => c.after.isSome
    | some r => c.before = some r

/-- The key had this row at some moment. -/
def Held (m : K → Option (C → W)) (cs : List (Change B K C W)) (k : K) (x : Option (C → W)) :
    Prop :=
  x = m k ∨ ∃ c ∈ cs, c.key = k ∧ c.after = x

/-- The changes of one key. -/
def changesOf (k : K) (cs : List (Change B K C W)) : List (Change B K C W) :=
  cs.filter fun c => c.key = k

theorem mem_changesOf {k : K} {cs : List (Change B K C W)} {c : Change B K C W} :
    c ∈ changesOf k cs ↔ c ∈ cs ∧ c.key = k := by
  simp [changesOf]

theorem applyAll_append (m : K → Option (C → W)) (cs cs' : List (Change B K C W)) :
    applyAll m (cs ++ cs') = applyAll (applyAll m cs) cs' := List.foldl_append

theorem undoAll_append (m : K → Option (C → W)) (cs cs' : List (Change B K C W)) :
    undoAll m (cs ++ cs') = undoAll (undoAll m cs) cs' := by
  unfold undoAll
  rw [List.map_append, replay_append]

theorem undoAll_apply (m : K → Option (C → W)) (cs : List (Change B K C W)) (k : K) :
    undoAll m cs k = runAll (m k) ((changesOf k cs).map Change.undo) := by
  unfold undoAll
  rw [replay_apply]
  congr 1
  simp [onKey, changesOf, List.filter_map, Function.comp_def]

theorem follows_append {m : K → Option (C → W)} {cs cs' : List (Change B K C W)} :
    Follows m (cs ++ cs') ↔ Follows m cs ∧ Follows (applyAll m cs) cs' := by
  induction cs generalizing m with
  | nil => simp [Follows, applyAll]
  | cons c cs ih =>
    change _ ∧ _ ∧ Follows (applyChange m c) (cs ++ cs') ↔ (_ ∧ _ ∧ _) ∧ _
    rw [ih]
    simp only [and_assoc]
    rfl

theorem applyAll_held (m : K → Option (C → W)) (cs : List (Change B K C W)) (k : K) :
    Held m cs k (applyAll m cs k) := by
  induction cs generalizing m with
  | nil => exact .inl rfl
  | cons c cs ih =>
    have h := ih (applyChange m c)
    change Held m (c :: cs) k (applyAll (applyChange m c) cs k)
    rcases h with h | ⟨c', hc', hk, hafter⟩
    · by_cases hk : k = c.key
      · subst hk
        exact .inr ⟨c, List.mem_cons_self, rfl, by rw [h]; simp [applyChange]⟩
      · left
        rw [h]
        simp [applyChange, Function.update_of_ne hk]
    · exact .inr ⟨c', List.mem_cons_of_mem _ hc', hk, hafter⟩

theorem applyAll_of_ne {m : K → Option (C → W)} {cs : List (Change B K C W)} {k : K}
    (h : ∀ c ∈ cs, c.key ≠ k) : applyAll m cs k = m k := by
  rcases applyAll_held m cs k with hk | ⟨c, hc, hck, -⟩
  · exact hk
  · exact absurd hck (h c hc)

theorem held_before {m : K → Option (C → W)} {cs : List (Change B K C W)} (h : Follows m cs)
    {c : Change B K C W} (hc : c ∈ cs) : Held m cs c.key c.before := by
  obtain ⟨pre, post, rfl⟩ := List.append_of_mem hc
  obtain ⟨-, hbefore, -⟩ := follows_append.mp h
  rw [← hbefore]
  rcases applyAll_held m pre c.key with h | ⟨c', hc', hk, hafter⟩
  · exact .inl h
  · exact .inr ⟨c', List.mem_append_left _ hc', hk, hafter⟩

theorem exists_first {m : K → Option (C → W)} {cs : List (Change B K C W)} (h : Follows m cs)
    {k : K} (hk : changesOf k cs ≠ []) : ∃ c ∈ changesOf k cs, c.before = m k := by
  induction cs generalizing m with
  | nil => simp [changesOf] at hk
  | cons c cs ih =>
    obtain ⟨hbefore, -, hrest⟩ := h
    by_cases hc : c.key = k
    · subst hc
      exact ⟨c, mem_changesOf.mpr ⟨List.mem_cons_self, rfl⟩, hbefore.symm⟩
    · have hcons : changesOf k (c :: cs) = changesOf k cs := by simp [changesOf, hc]
      rw [hcons] at hk ⊢
      obtain ⟨c', hc', hfirst⟩ := ih hrest hk
      refine ⟨c', hc', ?_⟩
      rw [hfirst]
      simp [applyChange, Function.update_of_ne (fun h : k = c.key => hc h.symm)]

theorem exists_last {m : K → Option (C → W)} {cs : List (Change B K C W)} {k : K}
    (hk : changesOf k cs ≠ []) : ∃ c ∈ changesOf k cs, c.after = applyAll m cs k := by
  induction cs using List.reverseRecOn with
  | nil => simp [changesOf] at hk
  | append_singleton cs c ih =>
    rw [applyAll_append]
    have hlast : applyAll (applyAll m cs) [c] = Function.update (applyAll m cs) c.key c.after := rfl
    rw [hlast]
    by_cases hc : c.key = k
    · subst hc
      exact ⟨c, mem_changesOf.mpr ⟨by simp, rfl⟩, by simp⟩
    · have hsame : changesOf k (cs ++ [c]) = changesOf k cs := by simp [changesOf, hc]
      rw [hsame] at hk ⊢
      rw [Function.update_of_ne (fun h : k = c.key => hc h.symm)]
      exact ih hk

end Keyed

theorem runAll_undo_none {cs : List (Change B K C W)} (h : ∀ c ∈ cs, c.after.isSome) :
    runAll none (cs.map Change.undo) = none := by
  induction cs with
  | nil => rfl
  | cons c cs ih =>
    have hnone : c.undo.run none = none := by
      obtain ⟨r, hr⟩ := Option.isSome_iff_exists.mp (h c List.mem_cons_self)
      cases hb : c.before <;> simp [Change.undo, hb, hr, Act.run]
    rw [List.map_cons, runAll_cons, hnone]
    exact ih fun c' hc' => h c' (List.mem_cons_of_mem _ hc')

theorem runAll_undo_some {cs : List (Change B K C W)} {r : C → W}
    (h : ∀ c ∈ cs, c.before = some r) : runAll (some r) (cs.map Change.undo) = some r := by
  induction cs with
  | nil => rfl
  | cons c cs ih =>
    have hsame : c.undo.run (some r) = some r := by
      rcases Change.run_undo_of_some (h c List.mem_cons_self) (some r) with h | h <;> exact h
    rw [List.map_cons, runAll_cons, hsame]
    exact ih fun c' hc' => h c' (List.mem_cons_of_mem _ hc')

/-- Undoing changes that all found `r` leaves the row as it is or puts `r` back. -/
theorem runAll_undo_or {cs : List (Change B K C W)} {r : C → W}
    (h : ∀ c ∈ cs, c.before = some r) (x : Option (C → W)) :
    runAll x (cs.map Change.undo) = x ∨ runAll x (cs.map Change.undo) = some r := by
  induction cs generalizing x with
  | nil => exact .inl rfl
  | cons c cs ih =>
    have hrest := fun c' hc' => h c' (List.mem_cons_of_mem _ hc')
    rw [List.map_cons, runAll_cons]
    rcases Change.run_undo_of_some (h c List.mem_cons_self) x with hx | hx <;> rw [hx]
    · exact .inr (runAll_undo_some hrest)
    · exact ih hrest x

/-- The undo of the change that left the present row puts back the row it found. -/
theorem run_undo_last {c : Change B K C W} {r : C → W} (hbefore : c.before = some r)
    {x : Option (C → W)} (hx : x = c.after ∨ x = some r) : c.undo.run x = some r := by
  rcases hx with rfl | rfl
  · cases hafter : c.after <;> simp [Change.undo, hbefore, hafter, Act.run]
  · rcases Change.run_undo_of_some hbefore (some r) with h | h <;> exact h

section Block

variable [DecidableEq K] {m : K → Option (C → W)} {cs l : List (Change B K C W)}

/-- While an order-free block is undone, in whatever order, each key has a row that it had at some
moment of the block. -/
theorem held_undoAll (hfollows : Follows m cs) (hfree : OrderFree m cs) (hl : ∀ c ∈ l, c ∈ cs)
    (k : K) : Held m cs k (undoAll (applyAll m cs) l k) := by
  rw [undoAll_apply]
  have hmem (c : Change B K C W) (hc : c ∈ changesOf k l) : c ∈ cs ∧ c.key = k :=
    ⟨hl c (mem_changesOf.mp hc).1, (mem_changesOf.mp hc).2⟩
  cases hk : m k with
  | some r =>
    have hbefore : ∀ c ∈ changesOf k l, c.before = some r := by
      intro c hc
      have h := hfree c (hmem c hc).1
      rw [(hmem c hc).2, hk] at h
      exact h
    rcases runAll_undo_or hbefore (applyAll m cs k) with h | h <;> rw [h]
    · exact applyAll_held m cs k
    · exact .inl hk.symm
  | none =>
    -- an absent key: undoing leaves it absent or writes a row that an earlier change left
    suffices hgen : ∀ g : List (Change B K C W), (∀ c ∈ g, c ∈ cs ∧ c.key = k) → ∀ x,
        Held m cs k x → Held m cs k (runAll x (g.map Change.undo)) from
      hgen _ hmem _ (applyAll_held m cs k)
    intro g hg
    induction g with
    | nil => exact fun x hx => hx
    | cons c g ih =>
      intro x hx
      rw [List.map_cons, runAll_cons]
      apply ih fun c' hc' => hg c' (List.mem_cons_of_mem _ hc')
      obtain ⟨hc, hck⟩ := hg c List.mem_cons_self
      cases hb : c.before with
      | none =>
        rw [Change.run_undo_of_none hb]
        exact .inl hk.symm
      | some r =>
        rcases Change.run_undo_of_some hb x with h | h <;> rw [h]
        · have hheld := held_before hfollows hc
          rw [hck, hb] at hheld
          exact hheld
        · exact hx

theorem undoAll_block (hfollows : Follows m cs) (hfree : OrderFree m cs) (hl : l.Perm cs) :
    undoAll (applyAll m cs) l = m := by
  funext k
  rw [undoAll_apply]
  have hperm : (changesOf k l).Perm (changesOf k cs) := hl.filter _
  by_cases hnil : changesOf k cs = []
  · rw [hnil] at hperm
    rw [hperm.eq_nil]
    rcases applyAll_held m cs k with h | ⟨c, hc, hck, -⟩
    · exact h
    · have hmem := mem_changesOf.mpr ⟨hc, hck⟩
      rw [hnil] at hmem
      simp at hmem
  have hmem (c : Change B K C W) (hc : c ∈ changesOf k l) : c ∈ cs ∧ c.key = k :=
    mem_changesOf.mp (hperm.mem_iff.mp hc)
  cases hk : m k with
  | none =>
    have hafter : ∀ c ∈ changesOf k l, c.after.isSome := by
      intro c hc
      have h := hfree c (hmem c hc).1
      rw [(hmem c hc).2, hk] at h
      exact h
    -- the insertion of the key is among the changes, and after its undo the key stays absent
    obtain ⟨c, hc, hfirst⟩ := exists_first hfollows hnil
    obtain ⟨l₁, l₂, hsplit⟩ := List.append_of_mem (hperm.mem_iff.mpr hc)
    rw [hsplit, List.map_append, List.map_cons, runAll_append, runAll_cons,
      Change.run_undo_of_none (hfirst.trans hk)]
    exact runAll_undo_none fun c' hc' => hafter c' (by simp [hsplit, hc'])
  | some r =>
    have hbefore : ∀ c ∈ changesOf k l, c.before = some r := by
      intro c hc
      have h := hfree c (hmem c hc).1
      rw [(hmem c hc).2, hk] at h
      exact h
    -- the change that left the present row is among the changes
    obtain ⟨c, hc, hlast⟩ := exists_last (m := m) hnil
    obtain ⟨l₁, l₂, hsplit⟩ := List.append_of_mem (hperm.mem_iff.mpr hc)
    have hc' : c.before = some r := hbefore c (hperm.mem_iff.mpr hc)
    rw [hsplit, List.map_append, List.map_cons, runAll_append, runAll_cons, ← hlast,
      run_undo_last hc' (runAll_undo_or (fun c' hc' => hbefore c' (by simp [hsplit, hc'])) _)]
    exact runAll_undo_some fun c' hc' => hbefore c' (by simp [hsplit, hc'])

end Block

section Blocks

variable [DecidableEq K] [LinearOrder B] {m : K → Option (C → W)} {cs l : List (Change B K C W)}

/-- The changes below a block. -/
def below (b : B) (cs : List (Change B K C W)) : List (Change B K C W) :=
  cs.filter fun c => c.block < b

/-- The changes of a block. -/
def atBlock (b : B) (cs : List (Change B K C W)) : List (Change B K C W) :=
  cs.filter fun c => c.block = b

/-- Every block is order-free from what the blocks below it left. -/
def BlocksFree (m : K → Option (C → W)) (cs : List (Change B K C W)) : Prop :=
  ∀ b, OrderFree (applyAll m (below b cs)) (atBlock b cs)

/-- The key had this row at some moment of the block. -/
def HeldIn (m : K → Option (C → W)) (cs : List (Change B K C W)) (b : B) (k : K)
    (x : Option (C → W)) : Prop :=
  Held (applyAll m (below b cs)) (atBlock b cs) k x

omit [DecidableEq K] in
theorem eq_below_append_atBlock {b : B} (hsorted : cs.Pairwise fun c c' => c.block ≤ c'.block)
    (hle : ∀ c ∈ cs, c.block ≤ b) : cs = below b cs ++ atBlock b cs := by
  induction cs with
  | nil => rfl
  | cons c cs ih =>
    obtain ⟨hc, hsorted⟩ := List.pairwise_cons.mp hsorted
    have hrest := ih hsorted fun c' hc' => hle c' (List.mem_cons_of_mem _ hc')
    rcases lt_or_eq_of_le (hle c List.mem_cons_self) with hlt | heq
    · have hne : ¬c.block = b := ne_of_lt hlt
      simpa [below, atBlock, hlt, hne] using hrest
    · have hbelow : below b cs = [] := by
        rw [below, List.filter_eq_nil_iff]
        intro c' hc'
        simpa [← heq] using hc c' hc'
      rw [hbelow, List.nil_append] at hrest
      have hcons : below b (c :: cs) = below b cs := by simp [below, heq]
      have hat : atBlock b (c :: cs) = c :: atBlock b cs := by simp [atBlock, heq]
      rw [hcons, hbelow, hat, ← hrest, List.nil_append]

omit [DecidableEq K] in
theorem eq_atBlock_append_below {b : B} (hdesc : l.Pairwise fun c c' => c'.block ≤ c.block)
    (hle : ∀ c ∈ l, c.block ≤ b) : l = atBlock b l ++ below b l := by
  induction l with
  | nil => rfl
  | cons c l ih =>
    obtain ⟨hc, hdesc⟩ := List.pairwise_cons.mp hdesc
    have hrest := ih hdesc fun c' hc' => hle c' (List.mem_cons_of_mem _ hc')
    rcases lt_or_eq_of_le (hle c List.mem_cons_self) with hlt | heq
    · have hat : atBlock b l = [] := by
        rw [atBlock, List.filter_eq_nil_iff]
        intro c' hc'
        simpa using ne_of_lt (lt_of_le_of_lt (hc c' hc') hlt)
      rw [hat, List.nil_append] at hrest
      have hcons : atBlock b (c :: l) = atBlock b l := by simp [atBlock, ne_of_lt hlt]
      have hbelow : below b (c :: l) = c :: below b l := by simp [below, hlt]
      rw [hcons, hat, hbelow, ← hrest, List.nil_append]
    · simpa [below, atBlock, heq] using hrest

omit [DecidableEq K] in
theorem below_below {b b' : B} (h : b' ≤ b) (cs : List (Change B K C W)) :
    below b' (below b cs) = below b' cs := by
  unfold below
  rw [List.filter_filter]
  apply List.filter_congr
  intro c _
  rw [← Bool.decide_and]
  exact decide_eq_decide.mpr ⟨fun hc => hc.1, fun hc => ⟨hc, lt_of_lt_of_le hc h⟩⟩

omit [DecidableEq K] in
theorem atBlock_below {b b' : B} (h : b' < b) (cs : List (Change B K C W)) :
    atBlock b' (below b cs) = atBlock b' cs := by
  unfold atBlock below
  rw [List.filter_filter]
  apply List.filter_congr
  intro c _
  rw [← Bool.decide_and]
  exact decide_eq_decide.mpr ⟨fun hc => hc.1, fun hc => ⟨hc, hc ▸ h⟩⟩

theorem BlocksFree.below {b : B} (h : BlocksFree m cs) : BlocksFree m (below b cs) := by
  intro b'
  by_cases hlt : b' < b
  · rw [below_below (le_of_lt hlt), atBlock_below hlt]
    exact h b'
  · intro c hc
    obtain ⟨hmem, hblock⟩ := List.mem_filter.mp hc
    obtain ⟨-, hlow⟩ := List.mem_filter.mp hmem
    simp only [decide_eq_true_eq] at hblock hlow
    exact absurd (hblock ▸ hlow) hlt

theorem HeldIn.of_below {b b' : B} (h : b' < b) {k : K} {x : Option (C → W)}
    (hx : HeldIn m (below b cs) b' k x) : HeldIn m cs b' k x := by
  unfold HeldIn at hx ⊢
  rw [below_below (le_of_lt h), atBlock_below h] at hx
  exact hx

/-- A log whose blocks are order-free is undone by any order that takes the last blocks first, and
on the way each key has a row that it had in the block that is being undone. -/
theorem undoAll_blocks (hfollows : Follows m cs) (hfree : BlocksFree m cs)
    (hsorted : cs.Pairwise fun c c' => c.block ≤ c'.block) (hperm : l.Perm cs)
    (hdesc : l.Pairwise fun c c' => c'.block ≤ c.block) :
    undoAll (applyAll m cs) l = m ∧ ∀ l₁ c l₂, l = l₁ ++ c :: l₂ → ∀ k,
      HeldIn m cs c.block k (undoAll (applyAll m cs) (l₁ ++ [c]) k) := by
  -- on the length of the log: the last block is undone first
  induction hn : cs.length using Nat.strongRecOn generalizing cs l with
  | ind n ih =>
    rcases List.eq_nil_or_concat cs with rfl | ⟨init, last, hcs⟩
    · rw [hperm.eq_nil]
      exact ⟨rfl, fun l₁ c l₂ h => by simp at h⟩
    rw [List.concat_eq_append] at hcs
    have hlast : last ∈ cs := by simp [hcs]
    have hle : ∀ c ∈ cs, c.block ≤ last.block := by
      intro c hc
      rw [hcs] at hc hsorted
      rcases List.mem_append.mp hc with hc | hc
      · exact (List.pairwise_append.mp hsorted).2.2 c hc last (by simp)
      · rw [List.mem_singleton.mp hc]
    have hsplit := eq_below_append_atBlock hsorted hle
    have hsplit' := eq_atBlock_append_below hdesc fun c hc => hle c (hperm.mem_iff.mp hc)
    obtain ⟨hf₁, hf₂⟩ := follows_append.mp (hsplit ▸ hfollows)
    have hend : applyAll m cs = applyAll (applyAll m (below last.block cs))
        (atBlock last.block cs) := by
      rw [← applyAll_append, ← hsplit]
    have htop : undoAll (applyAll m cs) (atBlock last.block l) = applyAll m (below last.block cs) := by
      rw [hend]
      exact undoAll_block hf₂ (hfree last.block) (hperm.filter _)
    have hshort : (below last.block cs).length < n := by
      have hlen := congrArg List.length hsplit
      have hpos : 0 < (atBlock last.block cs).length :=
        List.length_pos_of_mem (List.mem_filter.mpr ⟨hlast, by simp⟩)
      rw [List.length_append] at hlen
      omega
    obtain ⟨hrest, hheld⟩ := ih _ hshort hf₁ hfree.below (hsorted.filter _) (hperm.filter _)
      (hdesc.filter _) rfl
    change undoAll _ (below last.block l) = m at hrest
    refine ⟨by rw [hsplit', undoAll_append, htop, hrest], fun l₁ c l₂ hl k => ?_⟩
    have hsub : ∀ c' ∈ l₁ ++ [c], c' ∈ cs ∧ c.block ≤ c'.block := by
      intro c' hc'
      refine ⟨hperm.mem_iff.mp (by rw [hl]; simp at hc' ⊢; tauto), ?_⟩
      rcases List.mem_append.mp hc' with hc' | hc'
      · rw [hl] at hdesc
        exact (List.pairwise_append.mp hdesc).2.2 c' hc' c List.mem_cons_self
      · rw [List.mem_singleton.mp hc']
    rcases lt_or_eq_of_le (hle c (hsub c (by simp)).1) with hlt | heq
    · -- the last block has been undone before
      have hlater : ∀ c' ∈ c :: l₂, c'.block < last.block := by
        intro c' hc'
        rw [hl] at hdesc
        obtain ⟨-, htail, -⟩ := List.pairwise_append.mp hdesc
        rcases List.mem_cons.mp hc' with rfl | hc'
        · exact hlt
        · exact lt_of_le_of_lt ((List.pairwise_cons.mp htail).1 c' hc') hlt
      have hat : atBlock last.block l = atBlock last.block l₁ := by
        have hnone : atBlock last.block (c :: l₂) = [] :=
          List.filter_eq_nil_iff.mpr fun c' hc' => by simpa using ne_of_lt (hlater c' hc')
        rw [hl, atBlock, List.filter_append]
        change atBlock last.block l₁ ++ atBlock last.block (c :: l₂) = _
        rw [hnone, List.append_nil]
      have hbelow : below last.block l = below last.block l₁ ++ c :: l₂ := by
        rw [hl, below, List.filter_append]
        congr 1
        exact List.filter_eq_self.mpr fun c' hc' => by simpa using hlater c' hc'
      have hl₁ : l₁ = atBlock last.block l₁ ++ below last.block l₁ := by
        rw [hl] at hdesc
        exact eq_atBlock_append_below (List.pairwise_append.mp hdesc).1 fun c' hc' =>
          hle c' (hsub c' (List.mem_append_left _ hc')).1
      have h := hheld (below last.block l₁) c l₂ hbelow k
      rw [hl₁, ← hat, List.append_assoc, undoAll_append, htop]
      exact h.of_below hlt
    · -- the last block is being undone
      rw [hend, heq]
      apply held_undoAll hf₂ (hfree last.block)
      intro c' hc'
      obtain ⟨hmem, hge⟩ := hsub c' hc'
      refine List.mem_filter.mpr ⟨hmem, ?_⟩
      simpa using le_antisymm (hle c' hmem) (heq ▸ hge)

theorem blocksFree_of_once (hfollows : Follows m cs)
    (hsorted : cs.Pairwise fun c c' => c.block ≤ c'.block)
    (honce : cs.Pairwise fun c c' => c.block = c'.block → c.key ≠ c'.key) : BlocksFree m cs := by
  intro b c hc
  obtain ⟨hmem, hblock⟩ := List.mem_filter.mp hc
  rw [decide_eq_true_eq] at hblock
  obtain ⟨pre, post, rfl⟩ := List.append_of_mem hmem
  obtain ⟨-, hbefore, heffective, -⟩ := follows_append.mp hfollows
  obtain ⟨hpre, hpost, hcross⟩ := List.pairwise_append.mp hsorted
  -- below the block and before the change only other keys differ
  have hle : ∀ c' ∈ pre, c'.block ≤ b := by
    intro c' hc'
    rw [← hblock]
    exact hcross c' hc' c List.mem_cons_self
  have hbelow : below b (pre ++ c :: post) = below b pre := by
    have hnone : below b (c :: post) = [] := by
      rw [below, List.filter_eq_nil_iff]
      intro c' hc'
      rw [decide_eq_true_eq, not_lt, ← hblock]
      rcases List.mem_cons.mp hc' with rfl | hc'
      · exact le_rfl
      · exact (List.pairwise_cons.mp hpost).1 c' hc'
    rw [below, List.filter_append]
    change below b pre ++ below b (c :: post) = _
    rw [hnone, List.append_nil]
  have hstart : applyAll m (below b pre) c.key = c.before := by
    have hsplit : applyAll m pre c.key =
        applyAll (applyAll m (below b pre)) (atBlock b pre) c.key := by
      rw [← applyAll_append, ← eq_below_append_atBlock hpre hle]
    rw [← hbefore, hsplit]
    refine (applyAll_of_ne fun c' hc' => ?_).symm
    obtain ⟨hmem', hblock'⟩ := List.mem_filter.mp hc'
    rw [decide_eq_true_eq] at hblock'
    exact (List.pairwise_append.mp honce).2.2 c' hmem' c List.mem_cons_self
      (hblock'.trans hblock.symm)
  rw [hbelow, hstart]
  cases hb : c.before with
  | none =>
    rw [hb] at heffective
    simpa using heffective
  | some r => rfl

end Blocks

end UndoLog
