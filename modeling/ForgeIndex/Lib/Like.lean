import Mathlib.Data.List.Infix
import Mathlib.Tactic.Common

/-!
# `LIKE` patterns

A percent sign stands for any text, an underscore for any character, and a backslash takes the
meaning from the character behind it.  A pattern made of a text between two percent signs searches
for this text, as long as the text has none of these characters.
-/

namespace Like

/-- The characters with a meaning of their own. -/
def Special (c : Char) : Prop := c = '%' ∨ c = '_' ∨ c = '\\'

instance (c : Char) : Decidable (Special c) :=
  inferInstanceAs (Decidable (c = '%' ∨ c = '_' ∨ c = '\\'))

/-- The text matches the pattern.  A pattern that ends in the middle of an escape matches nothing. -/
def like : List Char → List Char → Bool
  | [], v => v.isEmpty
  | '%' :: p, v => v.tails.any (like p)
  | '_' :: p, v =>
    match v with
    | [] => false
    | _ :: v => like p v
  | ['\\'], _ => false
  | '\\' :: c :: p, v =>
    match v with
    | [] => false
    | d :: v => decide (c = d) && like p v
  | c :: p, v =>
    match v with
    | [] => false
    | d :: v => decide (c = d) && like p v

theorem like_percent (p v : List Char) :
    like ('%' :: p) v = true ↔ ∃ rest, rest <:+ v ∧ like p rest = true := by
  rw [like, List.any_eq_true]
  simp only [List.mem_tails]

theorem like_cons {c : Char} (h : ¬Special c) (p : List Char) (d : Char) (v : List Char) :
    like (c :: p) (d :: v) = (decide (c = d) && like p v) := by
  unfold Special at h
  rw [not_or, not_or] at h
  rw [like]
  · exact h.1
  · exact h.2.1
  · exact fun hc _ => h.2.2 hc
  · exact fun _ _ hc _ => h.2.2 hc

theorem like_cons_nil {c : Char} (h : ¬Special c) (p : List Char) : like (c :: p) [] = false := by
  unfold Special at h
  rw [not_or, not_or] at h
  rw [like]
  · exact h.1
  · exact h.2.1
  · exact fun hc _ => h.2.2 hc
  · exact fun _ _ hc _ => h.2.2 hc

theorem like_append {raw : List Char} (h : ∀ c ∈ raw, ¬Special c) (p v : List Char) :
    like (raw ++ p) v = true ↔ ∃ rest, v = raw ++ rest ∧ like p rest = true := by
  induction raw generalizing v with
  | nil => simp
  | cons c raw ih =>
    have hc := h c List.mem_cons_self
    have hraw := ih fun d hd => h d (List.mem_cons_of_mem c hd)
    rw [List.cons_append]
    cases v with
    | nil => simp [like_cons_nil hc]
    | cons d v =>
      rw [like_cons hc, Bool.and_eq_true, decide_eq_true_iff, hraw]
      constructor
      · intro ⟨hd, rest, hrest, hlike⟩
        exact ⟨rest, by rw [hd, hrest, List.cons_append], hlike⟩
      · intro ⟨rest, hrest, hlike⟩
        obtain ⟨hd, hv⟩ := List.cons.inj hrest
        exact ⟨hd.symm, rest, hv, hlike⟩

/-- The pattern that is to find a text. -/
def containing (raw : List Char) : List Char := '%' :: (raw ++ ['%'])

theorem like_percent_all (v : List Char) : like ['%'] v = true := by
  rw [like_percent]
  exact ⟨[], List.nil_suffix, rfl⟩

theorem like_containing {raw : List Char} (h : ∀ c ∈ raw, ¬Special c) (v : List Char) :
    like (containing raw) v = true ↔ raw <:+: v := by
  unfold containing
  rw [like_percent]
  constructor
  · intro ⟨rest, ⟨pre, hpre⟩, hlike⟩
    obtain ⟨post, hpost, -⟩ := (like_append h ['%'] rest).mp hlike
    exact ⟨pre, post, by rw [← hpre, hpost, List.append_assoc]⟩
  · intro ⟨pre, post, hv⟩
    refine ⟨raw ++ post, ⟨pre, by rw [← hv, List.append_assoc]⟩, ?_⟩
    exact (like_append h ['%'] (raw ++ post)).mpr ⟨post, rfl, like_percent_all post⟩

/-- A text that the pattern finds: a percent sign for nothing, an underscore for a percent sign, and
what is escaped for itself. -/
def sample : List Char → List Char
  | [] => []
  | '%' :: p => sample p
  | '_' :: p => '%' :: sample p
  | ['\\'] => ['%']
  | '\\' :: c :: p => c :: sample p
  | c :: p => c :: sample p

theorem sample_cons {c : Char} (h : ¬Special c) (p : List Char) :
    sample (c :: p) = c :: sample p := by
  unfold Special at h
  rw [not_or, not_or] at h
  rw [sample]
  · exact h.1
  · exact h.2.1
  · exact fun hc _ => h.2.2 hc
  · exact fun _ _ hc _ => h.2.2 hc

theorem like_sample (raw : List Char) : like (raw ++ ['%']) (sample raw) = true := by
  induction raw using sample.induct with
  | case1 => rfl
  | case2 p ih =>
    rw [List.cons_append, sample, like_percent]
    exact ⟨sample p, List.suffix_refl _, ih⟩
  | case3 p ih => exact ih
  | case4 => rfl
  | case5 c p ih =>
    show (decide (c = c) && like (p ++ ['%']) (sample p)) = true
    rw [ih, decide_eq_true rfl]
    rfl
  | case6 c p h1 h2 h3 h4 ih =>
    have hc : ¬Special c := by
      intro hspecial
      rcases hspecial with hc | hc | hc
      · exact h1 hc
      · exact h2 hc
      · cases p with
        | nil => exact h3 hc rfl
        | cons d p => exact h4 d p hc rfl
    rw [sample_cons hc, List.cons_append, like_cons hc, ih, decide_eq_true rfl]
    rfl

theorem length_sample_le (raw : List Char) : (sample raw).length ≤ raw.length := by
  induction raw using sample.induct with
  | case1 => exact Nat.le_refl 0
  | case2 p ih =>
    rw [sample, List.length_cons]
    omega
  | case3 p ih =>
    rw [sample, List.length_cons, List.length_cons]
    omega
  | case4 => exact Nat.le_refl 1
  | case5 c p ih =>
    rw [sample, List.length_cons, List.length_cons, List.length_cons]
    omega
  | case6 c p h1 h2 h3 h4 ih =>
    rw [sample, List.length_cons, List.length_cons]
    · omega
    · exact h1
    · exact h2
    · exact h3
    · exact h4

theorem special_of_sample_ne {raw : List Char} (h : sample raw = raw) : ∀ c ∈ raw, ¬Special c := by
  induction raw with
  | nil => exact fun c hc => absurd hc List.not_mem_nil
  | cons c p ih =>
    by_cases hc : Special c
    · -- either the sample is shorter, or it begins with another character
      exfalso
      have hlength := congrArg List.length h
      have hle := length_sample_le p
      rcases hc with rfl | rfl | rfl
      · rw [sample, List.length_cons] at hlength
        omega
      · rw [sample] at h
        exact absurd (List.cons.inj h).1 (by decide)
      · cases p with
        | nil => exact absurd (List.cons.inj h).1 (by decide)
        | cons d p =>
          have hle' := length_sample_le p
          rw [sample, List.length_cons, List.length_cons, List.length_cons] at hlength
          omega
    · rw [sample_cons hc] at h
      rw [List.forall_mem_cons]
      exact ⟨hc, ih (List.cons.inj h).2⟩

/-- The pattern finds the sample, which the text occurs in only if it has none of these
characters. -/
theorem not_special_of_sample {raw : List Char}
    (h : like (containing raw) (sample raw) = true → raw <:+: sample raw) : ∀ c ∈ raw, ¬Special c := by
  have hsample : like (containing raw) (sample raw) = true := by
    unfold containing
    rw [like_percent]
    exact ⟨sample raw, List.suffix_refl _, like_sample raw⟩
  have hoccurs := h hsample
  have hlength := Nat.le_antisymm hoccurs.length_le (length_sample_le raw)
  exact special_of_sample_ne (hoccurs.eq_of_length hlength).symm

/-- The lower case of characters, of which those with a meaning have none. -/
structure Lowers (lower : Char → Char) : Prop where
  idem : ∀ c, lower (lower c) = lower c
  special : ∀ m, Special m → ∀ c, lower c = m ↔ c = m

/-- `v ILIKE pattern`: both in lower case. -/
def ilike (lower : Char → Char) (pattern v : List Char) : Bool :=
  like (pattern.map lower) (v.map lower)

/-- The text occurs up to letter case. -/
def Occurs (lower : Char → Char) (raw v : List Char) : Prop := raw.map lower <:+: v.map lower

variable {lower : Char → Char}

theorem Lowers.special_lower (h : Lowers lower) (c : Char) : Special (lower c) ↔ Special c := by
  constructor
  · intro hc
    rw [(h.special (lower c) hc c).mp rfl]
    exact hc
  · intro hc
    rw [(h.special c hc c).mpr rfl]
    exact hc

theorem mem_sample {raw : List Char} {c : Char} (h : c ∈ sample raw) : c = '%' ∨ c ∈ raw := by
  induction raw using sample.induct with
  | case1 => exact .inr h
  | case2 p ih => exact (ih h).imp_right (List.mem_cons_of_mem _)
  | case3 p ih =>
    rcases List.mem_cons.mp h with hc | hc
    · exact .inl hc
    · exact (ih hc).imp_right (List.mem_cons_of_mem _)
  | case4 => exact .inl (List.mem_singleton.mp h)
  | case5 d p ih =>
    rcases List.mem_cons.mp h with hc | hc
    · exact .inr (hc ▸ List.mem_cons_of_mem _ List.mem_cons_self)
    · exact (ih hc).imp_right fun hmem => List.mem_cons_of_mem _ (List.mem_cons_of_mem _ hmem)
  | case6 d p h1 h2 h3 h4 ih =>
    rw [sample] at h
    · rcases List.mem_cons.mp h with hc | hc
      · exact .inr (hc ▸ List.mem_cons_self)
      · exact (ih hc).imp_right (List.mem_cons_of_mem _)
    · exact h1
    · exact h2
    · exact h3
    · exact h4

theorem ilike_containing_iff (h : Lowers lower) (raw : List Char) :
    (∀ v, ilike lower (containing raw) v = true ↔ Occurs lower raw v) ↔
      ∀ c ∈ raw, ¬Special c := by
  have hpercent : lower '%' = '%' := (h.special '%' (.inl rfl) '%').mpr rfl
  have hpattern : (containing raw).map lower = containing (raw.map lower) := by
    unfold containing
    rw [List.map_cons, List.map_append, List.map_singleton, hpercent]
  have hspecial : (∀ c ∈ raw.map lower, ¬Special c) ↔ ∀ c ∈ raw, ¬Special c := by
    rw [List.forall_mem_map]
    simp only [h.special_lower]
  rw [← hspecial]
  constructor
  · intro hall
    -- the sample is in lower case
    have hsample : (sample (raw.map lower)).map lower = sample (raw.map lower) := by
      refine (List.map_congr_left fun c hc => ?_).trans (List.map_id _)
      rcases mem_sample hc with rfl | hc
      · exact hpercent
      · obtain ⟨d, -, rfl⟩ := List.mem_map.mp hc
        exact h.idem d
    have hlike := hall (sample (raw.map lower))
    unfold ilike Occurs at hlike
    rw [hpattern, hsample] at hlike
    exact not_special_of_sample hlike.mp
  · intro hnone v
    unfold ilike Occurs
    rw [hpattern]
    exact like_containing hnone (v.map lower)

end Like
