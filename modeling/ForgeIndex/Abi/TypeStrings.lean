import ForgeIndex.Lib.Peeling
import ForgeIndex.Abi.Parser
import Mathlib.Data.List.TakeDrop

/-!
# Type strings

What `parse_type_string` makes of a text: it takes array suffixes off its end as long as there are
any, and reads the rest as an elementary type.
-/

namespace ForgeIndex

open Peeling

/-- One array layer, without a length or with one. -/
def AbiType.layer (t : AbiType) : Option ℕ → AbiType
  | none => .array t
  | some n => .fixedArray t n

/-- Array layers around a type, the innermost first. -/
def AbiType.wrap (t : AbiType) (layers : List (Option ℕ)) : AbiType := layers.foldl AbiType.layer t

/-- A text that stands for a layer: `[]`, or what `usize` parses, between brackets. -/
def SuffixText (text : List Char) : Option ℕ → Prop
  | none => text = ['[', ']']
  | some n => ∃ u, parseUsize u = some n ∧ text = '[' :: (u ++ [']'])

/-- The suffix that `parse_type_string` strips. -/
def peelSuffix (cs : List Char) : Option (List Char × Option ℕ) :=
  match stripBrackets cs with
  | some inner => some (inner, none)
  | none => (splitSize cs).map fun p => (p.1, some p.2)

/-- The value of decimal digits. -/
abbrev decimal (ds : List Char) : ℕ := Nat.ofDigitChars 10 ds 0

/-- At least one letter, and all of them digits. -/
def IsDigits (ds : List Char) : Prop := ds ≠ [] ∧ ∀ c ∈ ds, c.isDigit = true

theorem isDigits_toString (n : ℕ) : IsDigits (toString n).toList := by
  have hlist : (toString n).toList = Nat.toDigits 10 n := Nat.toList_repr
  rw [hlist]
  refine ⟨Nat.toDigits_ne_nil, fun c hc => ?_⟩
  exact Nat.isDigit_of_mem_toDigits (by omega) (by omega) hc

theorem decimal_toString (n : ℕ) : decimal (toString n).toList = n := by
  have hlist : (toString n).toList = Nat.toDigits 10 n := Nat.toList_repr
  rw [decimal, hlist]
  exact Nat.ofDigitChars_toDigits (by omega) (by omega)

theorem parseUsize_of_digits {ds : List Char} (h : IsDigits ds) :
    parseUsize ds = if decimal ds < 2 ^ 64 then some (decimal ds) else none := by
  obtain ⟨hne, hall⟩ := h
  have hdigits : ds ≠ [] ∧ ds.all Char.isDigit = true := ⟨hne, List.all_eq_true.mpr hall⟩
  unfold parseUsize
  dsimp only
  split
  · exact absurd (hall '+' List.mem_cons_self) (by decide)
  · rw [if_pos hdigits, ← Nat.ofDigitChars_eq_foldl]

theorem parseUsize_toString {n : ℕ} (h : n < 2 ^ 64) : parseUsize (toString n).toList = some n := by
  rw [parseUsize_of_digits (isDigits_toString n), decimal_toString, if_pos h]

theorem digits_of_parseUsize {cs : List Char} {n : ℕ} (h : parseUsize cs = some n) :
    ∃ ds, IsDigits ds ∧ decimal ds = n ∧ n < 2 ^ 64 ∧ (cs = ds ∨ cs = '+' :: ds) := by
  have hread (ds : List Char) (hds : (if ds ≠ [] ∧ ds.all Char.isDigit = true then
      (let n := ds.foldl (fun n c => 10 * n + (c.toNat - '0'.toNat)) 0
      if n < 2 ^ 64 then some n else none) else none) = some n) :
      IsDigits ds ∧ decimal ds = n ∧ n < 2 ^ 64 := by
    split_ifs at hds with hdigits
    dsimp only at hds
    rw [← Nat.ofDigitChars_eq_foldl] at hds
    split_ifs at hds with hlt
    obtain rfl := Option.some.inj hds
    exact ⟨⟨hdigits.1, List.all_eq_true.mp hdigits.2⟩, rfl, hlt⟩
  unfold parseUsize at h
  dsimp only at h
  split at h
  · rename_i ds
    obtain ⟨hds, hn, hlt⟩ := hread ds h
    exact ⟨ds, hds, hn, hlt, Or.inr rfl⟩
  · obtain ⟨hds, hn, hlt⟩ := hread cs h
    exact ⟨cs, hds, hn, hlt, Or.inl rfl⟩

theorem bracket_not_mem_digits {c : Char} {ds : List Char} (h : IsDigits ds)
    (hc : c.isDigit = false) : c ∉ ds := by
  intro hmem
  rw [h.2 c hmem] at hc
  cases hc

theorem parseUsize_plain {cs : List Char} {n : ℕ} (h : parseUsize cs = some n) :
    cs ≠ [] ∧ '[' ∉ cs ∧ ']' ∉ cs := by
  obtain ⟨ds, hds, -, -, rfl | rfl⟩ := digits_of_parseUsize h
  · exact ⟨hds.1, bracket_not_mem_digits hds (by decide), bracket_not_mem_digits hds (by decide)⟩
  · have hopen := bracket_not_mem_digits (c := '[') hds (by decide)
    have hclose := bracket_not_mem_digits (c := ']') hds (by decide)
    simp [hopen, hclose]

theorem stripBrackets_eq_some_iff {cs inner : List Char} :
    stripBrackets cs = some inner ↔ cs = inner ++ ['[', ']'] := by
  constructor
  · intro h
    unfold stripBrackets at h
    split at h
    · rename_i rest hrev
      obtain rfl := Option.some.inj h
      rw [← List.reverse_reverse cs, hrev]
      simp
    · cases h
  · intro h
    rw [h, stripBrackets]
    simp

theorem splitSize_eq_some_iff {cs inner : List Char} {n : ℕ} :
    splitSize cs = some (inner, n) ↔
      ∃ u, parseUsize u = some n ∧ cs = inner ++ '[' :: (u ++ [']']) := by
  constructor
  · intro h
    unfold splitSize at h
    split at h
    · rename_i rest hrev
      split at h
      · rename_i size front hspan
        obtain ⟨m, hm, hpair⟩ := Option.map_eq_some_iff.mp h
        obtain ⟨rfl, rfl⟩ := Prod.mk.inj hpair
        refine ⟨size.reverse, hm, ?_⟩
        have hrest : rest = size ++ '[' :: front := by
          rw [List.span_eq_takeWhile_dropWhile] at hspan
          obtain ⟨hsize, hfront⟩ := Prod.mk.inj hspan
          rw [← hsize, ← hfront, List.takeWhile_append_dropWhile]
        rw [← List.reverse_reverse cs, hrev, hrest]
        simp
      · cases h
    · cases h
  · rintro ⟨u, hu, rfl⟩
    have hopen : '[' ∉ u := (parseUsize_plain hu).2.1
    have hspan : (u.reverse ++ '[' :: inner.reverse).span (· ≠ '[') =
        (u.reverse, '[' :: inner.reverse) := by
      rw [List.span_eq_takeWhile_dropWhile, List.takeWhile_append_of_pos, List.dropWhile_append_of_pos]
      · simp
      · intro c hc
        rw [decide_eq_true_iff]
        rintro rfl
        exact hopen (List.mem_reverse.mp hc)
      · intro c hc
        rw [decide_eq_true_iff]
        rintro rfl
        exact hopen (List.mem_reverse.mp hc)
    unfold splitSize
    have hrev : (inner ++ '[' :: (u ++ [']'])).reverse =
        ']' :: (u.reverse ++ '[' :: inner.reverse) := by simp
    rw [hrev]
    simp only [hspan, List.reverse_reverse, hu, Option.map_some]

theorem peels_suffix : Peels SuffixText peelSuffix where
  peel_iff cs rest d := by
    unfold peelSuffix
    cases hstrip : stripBrackets cs with
    | some inner =>
      have hcs := stripBrackets_eq_some_iff.mp hstrip
      constructor
      · intro h
        obtain ⟨rfl, rfl⟩ := Prod.mk.inj (Option.some.inj h)
        exact ⟨['[', ']'], rfl, hcs⟩
      · rintro ⟨text, htext, hcs'⟩
        cases d with
        | none =>
          obtain rfl : text = ['[', ']'] := htext
          rw [List.append_cancel_right (hcs.symm.trans hcs')]
        | some n =>
          -- a number stands between the brackets of the one, and nothing between those of the other
          obtain ⟨u, hu, rfl⟩ := htext
          have hlast : u = [] := by
            have hboth : inner ++ ['['] ++ [']'] = rest ++ '[' :: u ++ [']'] := by
              rw [List.append_assoc, List.append_assoc]
              exact hcs.symm.trans hcs'
            have hopens := append_inj_of_opens (c := '[') ⟨[], by simp, rfl⟩
              ⟨u, (parseUsize_plain hu).2.1, rfl⟩ (List.append_cancel_right hboth)
            exact (List.cons.inj hopens.2).2.symm
          exact absurd hlast (parseUsize_plain hu).1
    | none =>
      rw [Option.map_eq_some_iff]
      constructor
      · rintro ⟨⟨inner, n⟩, hsplit, hpair⟩
        obtain ⟨rfl, rfl⟩ := Prod.mk.inj hpair
        obtain ⟨u, hu, hcs⟩ := splitSize_eq_some_iff.mp hsplit
        exact ⟨_, ⟨u, hu, rfl⟩, hcs⟩
      · rintro ⟨text, htext, hcs⟩
        cases d with
        | none =>
          obtain rfl : text = ['[', ']'] := htext
          rw [stripBrackets_eq_some_iff.mpr hcs] at hstrip
          cases hstrip
        | some n =>
          obtain ⟨u, hu, rfl⟩ := htext
          exact ⟨(rest, n), splitSize_eq_some_iff.mpr ⟨u, hu, hcs⟩, rfl⟩
  ne_nil text d h := by
    cases d with
    | none =>
      obtain rfl : text = ['[', ']'] := h
      simp
    | some n =>
      obtain ⟨u, -, rfl⟩ := h
      simp

theorem parseTypeChars_eq {cs base : List Char} {pieces : List (List Char × Option ℕ)}
    (h : Peeled SuffixText peelSuffix cs base pieces) {fuel : ℕ} (hfuel : cs.length ≤ fuel) :
    parseTypeChars fuel cs =
      (parseElementary base).map fun t => t.wrap (pieces.map Prod.snd) := by
  have hrun : parseTypeChars fuel cs = (pieces.map Prod.snd).foldl
      (fun r d => r.map fun t => t.layer d) (parseElementary base) := by
    apply peels_suffix.run parseElementary (fun r d => r.map fun t => t.layer d) _ _ _ h hfuel
    · exact fun _ => rfl
    · intro n cs hbare
      unfold peelSuffix at hbare
      rw [parseTypeChars]
      cases hstrip : stripBrackets cs with
      | some inner =>
        rw [hstrip] at hbare
        cases hbare
      | none =>
        rw [hstrip] at hbare
        rw [Option.map_eq_none_iff.mp hbare]
    · intro n cs rest d hpeel
      unfold peelSuffix at hpeel
      rw [parseTypeChars]
      cases hstrip : stripBrackets cs with
      | some inner =>
        rw [hstrip] at hpeel
        obtain ⟨rfl, rfl⟩ := Prod.mk.inj (Option.some.inj hpeel)
        dsimp only
        cases parseTypeChars n inner <;> rfl
      | none =>
        rw [hstrip] at hpeel
        obtain ⟨p, hsplit, hpair⟩ := Option.map_eq_some_iff.mp hpeel
        obtain ⟨rfl, rfl⟩ := Prod.mk.inj hpair
        rw [hsplit]
        dsimp only
        cases parseTypeChars n p.1 <;> rfl
  rw [hrun]
  cases parseElementary base with
  | ok t =>
    induction pieces.map Prod.snd generalizing t with
    | nil => rfl
    | cons d ds ih => exact ih (t.layer d)
  | error e =>
    induction pieces.map Prod.snd with
    | nil => rfl
    | cons d ds ih => exact ih

theorem parseTypeString_eq {s : String} {base : List Char} {pieces : List (List Char × Option ℕ)}
    (h : Peeled SuffixText peelSuffix s.toList base pieces) : parseTypeString s =
      (parseElementary base).map fun t => t.wrap (pieces.map Prod.snd) :=
  parseTypeChars_eq h (le_of_eq rfl)

theorem peelSuffix_of_getLast? {cs : List Char} (h : cs.getLast? ≠ some ']') :
    peelSuffix cs = none := by
  cases hpeel : peelSuffix cs with
  | none => rfl
  | some r =>
    obtain ⟨text, htext, hcs⟩ := (peels_suffix.peel_iff cs r.1 r.2).mp hpeel
    exfalso
    apply h
    rw [hcs]
    cases hd : r.2 with
    | none =>
      rw [hd] at htext
      obtain rfl : text = ['[', ']'] := htext
      simp
    | some n =>
      rw [hd] at htext
      obtain ⟨u, -, rfl⟩ := htext
      rw [← List.cons_append, ← List.append_assoc, List.getLast?_concat]

end ForgeIndex
