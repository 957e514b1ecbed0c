import Mathlib.Data.List.Basic
import Mathlib.Data.List.Induction
import Mathlib.Logic.Function.Basic

/-!
# Operations on keyed rows, in order and in phases

A table is a partial map from keys to rows and a row assigns a value to every column.
Operations on different keys never meet, so every statement about a sequence of operations
reduces to the operations on one key (`replay_apply`).  A batch that runs all inserts, then
all updates, then all deletes is compared with the sequence it was cut from.
-/

namespace KeyedOps

variable {K C W : Type}

/-- One operation on the row of one key: insert-if-absent, partial assignment, removal. -/
inductive Act (C W : Type) where
  | insert (r : C → W)
  | update (s : C → Option W)
  | delete

/-- The columns that `s` mentions are overwritten. -/
def assign (s : C → Option W) (r : C → W) : C → W := fun c => (s c).getD (r c)

def Act.run : Act C W → Option (C → W) → Option (C → W)
  | .insert r, x => some (x.getD r)
  | .update s, x => x.map (assign s)
  | .delete, _ => none

/-- The place of the operation's kind in a batch. -/
def Act.rank : Act C W → ℕ
  | .insert _ => 0
  | .update _ => 1
  | .delete => 2

@[simp] theorem Act.rank_insert (r : C → W) : (Act.insert r).rank = 0 := rfl
@[simp] theorem Act.rank_update (s : C → Option W) : (Act.update s).rank = 1 := rfl
@[simp] theorem Act.rank_delete : (Act.delete : Act C W).rank = 2 := rfl

/-- The value an operation assigns to a column of a row that is there. -/
def Act.sets : Act C W → C → Option W
  | .update s, c => s c
  | _, _ => none

def runAll (x : Option (C → W)) (w : List (Act C W)) : Option (C → W) :=
  w.foldl (fun y a => a.run y) x

/-- The last value assigned to a column, if any. -/
def lastSet (w : List (Act C W)) (c : C) : Option W :=
  w.foldl (fun acc a => (a.sets c).or acc) none

@[simp] theorem runAll_nil (x : Option (C → W)) : runAll x [] = x := rfl

@[simp] theorem runAll_cons (x : Option (C → W)) (a : Act C W) (w : List (Act C W)) :
    runAll x (a :: w) = runAll (a.run x) w := rfl

theorem runAll_append (x : Option (C → W)) (v w : List (Act C W)) :
    runAll x (v ++ w) = runAll (runAll x v) w := List.foldl_append

section Keyed

variable [DecidableEq K]

/-- The operations on one key, in order. -/
def onKey (k : K) (ops : List (K × Act C W)) : List (Act C W) :=
  (ops.filter fun p => p.1 = k).map Prod.snd

def applyOp (m : K → Option (C → W)) (p : K × Act C W) : K → Option (C → W) :=
  Function.update m p.1 (p.2.run (m p.1))

def replay (m : K → Option (C → W)) (ops : List (K × Act C W)) : K → Option (C → W) :=
  ops.foldl applyOp m

theorem replay_append (m : K → Option (C → W)) (ops ops' : List (K × Act C W)) :
    replay m (ops ++ ops') = replay (replay m ops) ops' := List.foldl_append

theorem replay_apply (m : K → Option (C → W)) (ops : List (K × Act C W)) (k : K) :
    replay m ops k = runAll (m k) (onKey k ops) := by
  induction ops generalizing m with
  | nil => rfl
  | cons p ops ih =>
    change replay (applyOp m p) ops k = _
    rw [ih]
    by_cases hk : p.1 = k
    · subst hk
      simp [applyOp, onKey]
    · have hk' : k ≠ p.1 := fun h => hk h.symm
      simp [applyOp, onKey, hk, Function.update_of_ne hk']

/-- All inserts, then all updates, then all deletes. -/
def phases (ops : List (K × Act C W)) : List (K × Act C W) :=
  ops.filter (fun p => p.2.rank = 0) ++ ops.filter (fun p => p.2.rank = 1) ++
    ops.filter (fun p => p.2.rank = 2)

end Keyed

/-- The phases of the operations on a single key. -/
def sorted (w : List (Act C W)) : List (Act C W) :=
  w.filter (fun a => a.rank = 0) ++ w.filter (fun a => a.rank = 1) ++
    w.filter (fun a => a.rank = 2)

theorem onKey_filter [DecidableEq K] (k : K) (n : ℕ) (ops : List (K × Act C W)) :
    onKey k (ops.filter fun p => p.2.rank = n) = (onKey k ops).filter fun a => a.rank = n := by
  induction ops with
  | nil => rfl
  | cons p ops ih =>
    by_cases hk : p.1 = k <;> by_cases hn : p.2.rank = n <;>
      simpa [onKey, List.filter_cons, hk, hn] using ih

theorem onKey_phases [DecidableEq K] (k : K) (ops : List (K × Act C W)) :
    onKey k (phases ops) = sorted (onKey k ops) := by
  have happ (v w : List (K × Act C W)) : onKey k (v ++ w) = onKey k v ++ onKey k w := by
    simp [onKey]
  simp only [phases, sorted, happ, onKey_filter]

theorem sorted_of_pairwise {w : List (Act C W)}
    (hw : w.Pairwise fun a b => a.rank ≤ b.rank) : sorted w = w := by
  induction w with
  | nil => rfl
  | cons a w ih =>
    obtain ⟨ha, hw⟩ := List.pairwise_cons.mp hw
    have hnone (n : ℕ) (hn : n < a.rank) : w.filter (fun b => b.rank = n) = [] := by
      rw [List.filter_eq_nil_iff]
      intro b hb
      have := ha b hb
      simp only [decide_eq_true_eq]
      omega
    have hs := ih hw
    cases a with
    | insert r => simpa [sorted] using hs
    | update s =>
      have h0 := hnone 0 (by simp)
      simpa [sorted, h0] using hs
    | delete =>
      have h0 := hnone 0 (by simp)
      have h1 := hnone 1 (by simp)
      simpa [sorted, h0, h1] using hs

/-- For each key, inserts come before updates and updates before deletes; different keys may
interleave. -/
def PhaseOrdered (ops : List (K × Act C W)) : Prop :=
  ops.Pairwise fun p q => p.1 = q.1 → p.2.rank ≤ q.2.rank

instance [DecidableEq K] (ops : List (K × Act C W)) : Decidable (PhaseOrdered ops) :=
  inferInstanceAs (Decidable (ops.Pairwise _))

theorem PhaseOrdered.onKey [DecidableEq K] {ops : List (K × Act C W)} (h : PhaseOrdered ops)
    (k : K) : (onKey k ops).Pairwise fun a b => a.rank ≤ b.rank := by
  unfold KeyedOps.onKey
  rw [List.pairwise_map, List.pairwise_filter]
  refine h.imp ?_
  intro p q hpq hp hq
  exact hpq ((of_decide_eq_true hp).trans (of_decide_eq_true hq).symm)

theorem replay_phases_of_ordered [DecidableEq K] {ops : List (K × Act C W)}
    (h : PhaseOrdered ops) (m : K → Option (C → W)) : replay m (phases ops) = replay m ops := by
  funext k
  rw [replay_apply, replay_apply, onKey_phases, sorted_of_pairwise (h.onKey k)]

/-- An insert follows the last delete: the batch deletes what it should have kept. -/
def LateInsert (w : List (Act C W)) : Prop :=
  ∃ pre r post, w = pre ++ .insert r :: post ∧ .delete ∈ pre ∧ .delete ∉ post

/-- The row was absent, is never deleted, and an update before its first insert leaves a value
in it that the insert does not have and no later update overwrites. -/
def EarlyUpdate (x : Option (C → W)) (w : List (Act C W)) : Prop :=
  x = none ∧ .delete ∉ w ∧ ∃ pre r post c v, w = pre ++ .insert r :: post ∧
    (∀ a ∈ pre, a.rank ≠ 0) ∧ lastSet pre c = some v ∧ lastSet post c = none ∧ v ≠ r c

theorem lastSet_foldl (w : List (Act C W)) (c : C) (d : Option W) :
    w.foldl (fun acc a => (a.sets c).or acc) d = (lastSet w c).or d := by
  induction w using List.reverseRecOn generalizing d with
  | nil => rfl
  | append_singleton w a ih =>
    simp only [lastSet, List.foldl_append, List.foldl_cons, List.foldl_nil] at *
    rw [ih, Option.or_assoc]

theorem lastSet_append (v w : List (Act C W)) (c : C) :
    lastSet (v ++ w) c = (lastSet w c).or (lastSet v c) := by
  rw [lastSet, List.foldl_append]
  exact lastSet_foldl w c _

theorem lastSet_filter (w : List (Act C W)) (c : C) :
    lastSet (w.filter fun a => a.rank = 1) c = lastSet w c := by
  induction w using List.reverseRecOn with
  | nil => rfl
  | append_singleton w a ih =>
    rw [List.filter_append, lastSet_append, lastSet_append, ih]
    cases a <;> rfl

theorem Act.rank_eq_two {a : Act C W} (h : a.rank = 2) : a = .delete := by
  cases a <;> simp_all

theorem runAll_some {w : List (Act C W)} (hd : .delete ∉ w) (r : C → W) :
    runAll (some r) w = some fun c => (lastSet w c).getD (r c) := by
  induction w using List.reverseRecOn with
  | nil => rfl
  | append_singleton w a ih =>
    have hw : Act.delete ∉ w := fun h => hd (List.mem_append_left _ h)
    rw [runAll_append, ih hw]
    cases a with
    | insert r' => simp [runAll, Act.run, lastSet, Act.sets]
    | update s =>
      simp only [runAll, List.foldl_cons, List.foldl_nil, Act.run, Option.map_some,
        Option.some.injEq]
      funext c
      have hs : lastSet [Act.update s] c = s c := by simp [lastSet, Act.sets]
      rw [lastSet_append, hs]
      cases h : s c <;> simp [assign, h]
    | delete => exact absurd (List.mem_append_right _ (List.mem_singleton_self _)) hd

theorem runAll_none {w : List (Act C W)} (hi : ∀ a ∈ w, a.rank ≠ 0) :
    runAll none w = none := by
  induction w with
  | nil => rfl
  | cons a w ih =>
    have ha := hi a List.mem_cons_self
    have hw := ih fun b hb => hi b (List.mem_cons_of_mem _ hb)
    cases a with
    | insert r => exact absurd rfl ha
    | update s => simpa [Act.run] using hw
    | delete => simpa [Act.run] using hw

theorem exists_first_insert {w : List (Act C W)} (hw : ∃ a ∈ w, a.rank = 0) :
    ∃ pre r post, w = pre ++ .insert r :: post ∧ ∀ a ∈ pre, a.rank ≠ 0 := by
  induction w with
  | nil => simp at hw
  | cons a w ih =>
    by_cases ha : a.rank = 0
    · cases a with
      | insert r => exact ⟨[], r, w, rfl, by simp⟩
      | update s => simp at ha
      | delete => simp at ha
    · obtain ⟨b, hb, hb0⟩ := hw
      have hbw : b ∈ w := by
        rcases List.mem_cons.mp hb with rfl | h
        · exact absurd hb0 ha
        · exact h
      obtain ⟨pre, r, post, rfl, hpre⟩ := ih ⟨b, hbw, hb0⟩
      refine ⟨a :: pre, r, post, rfl, ?_⟩
      intro c hc
      rcases List.mem_cons.mp hc with rfl | hc
      · exact ha
      · exact hpre c hc

theorem exists_last_delete {w : List (Act C W)} (hw : .delete ∈ w) :
    ∃ pre post, w = pre ++ .delete :: post ∧ .delete ∉ post := by
  induction w with
  | nil => simp at hw
  | cons a w ih =>
    by_cases hd : Act.delete ∈ w
    · obtain ⟨pre, post, rfl, hpost⟩ := ih hd
      exact ⟨a :: pre, post, rfl, hpost⟩
    · rcases List.mem_cons.mp hw with rfl | h
      · exact ⟨[], w, rfl, hd⟩
      · exact absurd h hd

theorem runAll_sorted (x : Option (C → W)) (w : List (Act C W)) :
    runAll x (sorted w) = runAll (runAll (runAll x (w.filter fun a => a.rank = 0))
      (w.filter fun a => a.rank = 1)) (w.filter fun a => a.rank = 2) := by
  rw [sorted, runAll_append, runAll_append]

theorem runAll_deletes {w : List (Act C W)} (hd : .delete ∈ w) (x : Option (C → W)) :
    runAll x (w.filter fun a => a.rank = 2) = none := by
  have hmem : Act.delete ∈ w.filter (fun a => a.rank = 2) := List.mem_filter.mpr ⟨hd, rfl⟩
  obtain ⟨pre, post, he, -⟩ := exists_last_delete hmem
  have hpost : ∀ a ∈ post, a.rank ≠ 0 := by
    intro a ha
    have hm : a ∈ w.filter fun a => a.rank = 2 := he ▸ List.mem_append_right _
      (List.mem_cons_of_mem _ ha)
    have hr := of_decide_eq_true (List.mem_filter.mp hm).2
    omega
  rw [he, runAll_append, runAll_cons]
  exact runAll_none hpost

theorem runAll_sorted_delete {w : List (Act C W)} (hd : .delete ∈ w) (x : Option (C → W)) :
    runAll x (sorted w) = none := by
  rw [runAll_sorted, runAll_deletes hd]

theorem filter_delete_nil {w : List (Act C W)} (hd : .delete ∉ w) :
    w.filter (fun a => a.rank = 2) = [] := by
  rw [List.filter_eq_nil_iff]
  intro a ha h
  exact hd (Act.rank_eq_two (of_decide_eq_true h) ▸ ha)

theorem not_delete_filter {w : List (Act C W)} (n : ℕ) (hd : .delete ∉ w) :
    .delete ∉ w.filter (fun a => a.rank = n) := fun h => hd (List.mem_filter.mp h).1

theorem runAll_updates {w : List (Act C W)} (hd : .delete ∉ w) (x : Option (C → W)) :
    runAll x (w.filter fun a => a.rank = 1) = x.map fun r c => (lastSet w c).getD (r c) := by
  cases x with
  | none =>
    refine runAll_none fun a ha => ?_
    have hr := of_decide_eq_true (List.mem_filter.mp ha).2
    omega
  | some r =>
    rw [runAll_some (not_delete_filter 1 hd)]
    simp only [lastSet_filter, Option.map_some]

theorem lastSet_inserts (w : List (Act C W)) (c : C) :
    lastSet (w.filter fun a => a.rank = 0) c = none := by
  induction w using List.reverseRecOn with
  | nil => rfl
  | append_singleton w a ih =>
    rw [List.filter_append, lastSet_append, ih]
    cases a <;> rfl

theorem runAll_sorted_some {w : List (Act C W)} (hd : .delete ∉ w) (r : C → W) :
    runAll (some r) (sorted w) = runAll (some r) w := by
  rw [runAll_sorted, filter_delete_nil hd, runAll_nil, runAll_some (not_delete_filter 0 hd),
    runAll_some (not_delete_filter 1 hd), runAll_some hd]
  simp only [lastSet_filter, lastSet_inserts, Option.getD_none]

theorem runAll_sorted_none {pre post : List (Act C W)} {r : C → W}
    (hd : .delete ∉ pre ++ .insert r :: post) (hpre : ∀ a ∈ pre, a.rank ≠ 0) :
    runAll none (sorted (pre ++ .insert r :: post)) =
      some fun c => ((lastSet post c).or (lastSet pre c)).getD (r c) := by
  have hpre0 : pre.filter (fun a => a.rank = 0) = [] := by
    rw [List.filter_eq_nil_iff]
    intro a ha h
    exact hpre a ha (of_decide_eq_true h)
  have hpost : Act.delete ∉ post := fun h =>
    hd (List.mem_append_right _ (List.mem_cons_of_mem _ h))
  rw [runAll_sorted, filter_delete_nil hd, runAll_nil, List.filter_append, hpre0]
  have hins : List.filter (fun a => a.rank = 0) (Act.insert r :: post) =
      .insert r :: post.filter fun a => a.rank = 0 := by simp
  rw [List.nil_append, hins, runAll_cons]
  change runAll (runAll (some r) _) _ = _
  rw [runAll_some (not_delete_filter 0 hpost), runAll_some (not_delete_filter 1 hd)]
  congr 1
  funext c
  have hcons : lastSet (Act.insert r :: post) c = lastSet post c := by
    rw [← List.singleton_append, lastSet_append]
    change (lastSet post c).or none = _
    simp
  rw [lastSet_filter, lastSet_append, hcons, lastSet_inserts]
  rfl

theorem runAll_insert_none {pre post : List (Act C W)} {r : C → W}
    (hd : .delete ∉ pre ++ .insert r :: post) (hpre : ∀ a ∈ pre, a.rank ≠ 0) :
    runAll none (pre ++ .insert r :: post) = some fun c => (lastSet post c).getD (r c) := by
  have hpost : Act.delete ∉ post := fun h =>
    hd (List.mem_append_right _ (List.mem_cons_of_mem _ h))
  rw [runAll_append, runAll_none hpre, runAll_cons]
  exact runAll_some hpost r

theorem isSome_runAll_insert {post : List (Act C W)} (hd : .delete ∉ post)
    (hi : ∃ a ∈ post, a.rank = 0) (x : Option (C → W)) : runAll x post ≠ none := by
  obtain ⟨pre, r, suf, rfl, -⟩ := exists_first_insert hi
  have hsuf : Act.delete ∉ suf := fun h =>
    hd (List.mem_append_right _ (List.mem_cons_of_mem _ h))
  rw [runAll_append, runAll_cons]
  change runAll (some _) suf ≠ none
  rw [runAll_some hsuf]
  simp

/-- The exact condition under which running a key's operations in phases is running them in
the order they were issued. -/
theorem runAll_sorted_iff (x : Option (C → W)) (w : List (Act C W)) :
    runAll x (sorted w) = runAll x w ↔ ¬LateInsert w ∧ ¬EarlyUpdate x w := by
  by_cases hd : Act.delete ∈ w
  · have hearly : ¬EarlyUpdate x w := fun h => h.2.1 hd
    rw [runAll_sorted_delete hd]
    obtain ⟨pre, post, rfl, hpost⟩ := exists_last_delete hd
    rw [runAll_append, runAll_cons]
    change none = runAll none post ↔ _
    constructor
    · intro h
      refine ⟨?_, hearly⟩
      rintro ⟨pre', r, post', he, hmem, hno⟩
      -- the insert lies behind the last delete, so `post` contains it
      have hin : ∃ a ∈ post, a.rank = 0 := by
        rcases List.append_eq_append_iff.mp he with ⟨as, rfl, hb⟩ | ⟨cs, rfl, hb⟩
        · cases as with
          | nil => simp at hb
          | cons a as =>
            obtain ⟨rfl, rfl⟩ := List.cons.inj hb
            exact ⟨.insert r, by simp, rfl⟩
        · cases cs with
          | nil => simp at hb
          | cons c cs =>
            obtain ⟨rfl, rfl⟩ := List.cons.inj hb
            exact absurd (by simp) hno
      exact isSome_runAll_insert hpost hin none h.symm
    · rintro ⟨hlate, -⟩
      refine (runAll_none ?_).symm
      intro a ha h0
      cases a with
      | insert r =>
        obtain ⟨s, t, rfl⟩ := List.append_of_mem ha
        refine hlate ⟨pre ++ .delete :: s, r, t, by simp, by simp, ?_⟩
        exact fun h => hpost (by simp [h])
      | update s => simp at h0
      | delete => simp at h0
  · have hlate : ¬LateInsert w := by
      rintro ⟨pre, r, post, rfl, hmem, -⟩
      exact hd (List.mem_append_left _ hmem)
    cases x with
    | some r =>
      have hearly : ¬EarlyUpdate (some r) w := fun h => by simp [EarlyUpdate] at h
      simp [runAll_sorted_some hd, hlate, hearly]
    | none =>
      by_cases hi : ∃ a ∈ w, a.rank = 0
      · obtain ⟨pre, r, post, rfl, hpre⟩ := exists_first_insert hi
        rw [runAll_sorted_none hd hpre, runAll_insert_none hd hpre, Option.some.injEq]
        constructor
        · intro h
          refine ⟨hlate, ?_⟩
          rintro ⟨-, -, pre', r', post', c, v, he, hpre', hv, hno, hne⟩
          obtain ⟨rfl, rfl, rfl⟩ : pre = pre' ∧ r = r' ∧ post = post' := by
            have hins (p q : List (Act C W)) (s : C → W) (hp : ∀ a ∈ p, a.rank ≠ 0) :
                (p ++ Act.insert s :: q).takeWhile (fun a => a.rank ≠ 0) = p := by
              rw [List.takeWhile_append_of_pos (by simpa using hp)]
              simp
            have hp : pre = pre' := by
              rw [← hins pre post r hpre, he, hins pre' post' r' hpre']
            subst hp
            have hc := List.append_cancel_left he
            exact ⟨rfl, by simpa using hc⟩
          have hc := congrFun h c
          simp only [hv, hno, Option.none_or, Option.getD_some, Option.getD_none] at hc
          exact hne hc
        · rintro ⟨-, hearly⟩
          funext c
          cases hp : lastSet post c with
          | some v => simp
          | none =>
            cases hq : lastSet pre c with
            | none => simp
            | some v =>
              by_contra hne
              exact hearly ⟨rfl, hd, pre, r, post, c, v, rfl, hpre, hq, hp, by simpa using hne⟩
      · have hno : ∀ a ∈ w, a.rank ≠ 0 := fun a ha h => hi ⟨a, ha, h⟩
        have hno' : ∀ a ∈ sorted w, a.rank ≠ 0 := by
          intro a ha
          simp only [sorted, List.mem_append, List.mem_filter] at ha
          rcases ha with (ha | ha) | ha <;> exact hno a ha.1
        have hearly : ¬EarlyUpdate none w := by
          rintro ⟨-, -, pre, r, post, c, v, rfl, -⟩
          exact hno _ (List.mem_append_right _ List.mem_cons_self) rfl
        simp [runAll_none hno, runAll_none hno', hlate, hearly]

theorem replay_phases_iff [DecidableEq K] (m : K → Option (C → W)) (ops : List (K × Act C W)) :
    replay m (phases ops) = replay m ops ↔
      ∀ k, ¬LateInsert (onKey k ops) ∧ ¬EarlyUpdate (m k) (onKey k ops) := by
  rw [funext_iff]
  refine forall_congr' fun k => ?_
  rw [replay_apply, replay_apply, onKey_phases]
  exact runAll_sorted_iff (m k) (onKey k ops)

end KeyedOps
