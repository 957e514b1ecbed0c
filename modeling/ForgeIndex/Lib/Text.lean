import Mathlib.Algebra.GroupWithZero.Nat
import Mathlib.Data.List.DropRight
import Mathlib.Tactic.Common

/-!
# Texts

Strings as lists of characters with the operations of a UTF-8 string library: search, replacement,
trimming, splitting, and cutting at a byte offset.
-/

namespace Text

/-- The Unicode property `White_Space`. -/
def isWhitespace (c : Char) : Bool :=
  let n := c.toNat
  (9 ≤ n && n ≤ 13) || n == 32 || n == 0x85 || n == 0xA0 || n == 0x1680 ||
    (0x2000 ≤ n && n ≤ 0x200A) || n == 0x2028 || n == 0x2029 || n == 0x202F || n == 0x205F ||
    n == 0x3000

/-- The bytes of a text in UTF-8. -/
def byteLength (s : List Char) : ℕ := (s.map Char.utf8Size).sum

/-- The two parts of a text at a byte offset, if it is the start of a character or the end. -/
def splitAtByte : ℕ → List Char → Option (List Char × List Char)
  | 0, s => some ([], s)
  | _ + 1, [] => none
  | n + 1, c :: s =>
    if c.utf8Size ≤ n + 1 then (splitAtByte (n + 1 - c.utf8Size) s).map fun p => (c :: p.1, p.2)
    else none

/-- The index of the first occurrence. -/
def find (pat : List Char) : List Char → Option ℕ
  | [] => if pat.isEmpty then some 0 else none
  | c :: s => if pat.isPrefixOf (c :: s) then some 0 else (find pat s).map (· + 1)

def contains (pat s : List Char) : Bool := (find pat s).isSome

/-- Replacement from left to right; the first argument counts the characters that an occurrence
still covers. -/
def replaceFrom (pat new : List Char) : ℕ → List Char → List Char
  | _, [] => []
  | k + 1, _ :: s => replaceFrom pat new k s
  | 0, c :: s =>
    if pat.isPrefixOf (c :: s) then new ++ replaceFrom pat new (pat.length - 1) s
    else c :: replaceFrom pat new 0 s

/-- All occurrences of a pattern that is not empty, replaced. -/
def replaceAll (pat new s : List Char) : List Char := replaceFrom pat new 0 s

def trimStart (s : List Char) : List Char := s.dropWhile isWhitespace

def trimEndMatches (p : Char → Bool) (s : List Char) : List Char := s.rdropWhile p

def trimMatches (p : Char → Bool) (s : List Char) : List Char := (s.dropWhile p).rdropWhile p

def trim (s : List Char) : List Char := trimMatches isWhitespace s

/-- The maximal runs without white space. -/
def splitWhitespace (s : List Char) : List (List Char) :=
  (s.splitOnP isWhitespace).filter fun w => !w.isEmpty

/-- The parts around the last occurrence of a character. -/
def rsplitOnce (c : Char) (s : List Char) : Option (List Char × List Char) :=
  if c ∈ s then
    some ((s.rdropWhile (· ≠ c)).dropLast, s.rtakeWhile (· ≠ c))
  else none

theorem find_eq_some_iff {pat s : List Char} {i : ℕ} :
    find pat s = some i ↔ pat <+: s.drop i ∧ i ≤ s.length ∧ ∀ j < i, ¬pat <+: s.drop j := by
  induction s generalizing i with
  | nil =>
    unfold find
    cases pat with
    | nil =>
      constructor
      · rintro h
        cases h
        exact ⟨List.prefix_rfl, le_rfl, by simp⟩
      · rintro ⟨-, hi, -⟩
        simp at hi
        simp [hi]
    | cons a pat => simp
  | cons c s ih =>
    unfold find
    by_cases hpre : pat <+: c :: s
    · rw [if_pos (List.isPrefixOf_iff_prefix.mpr hpre)]
      constructor
      · rintro h
        cases h
        exact ⟨hpre, Nat.zero_le _, by simp⟩
      · rintro ⟨-, -, hleast⟩
        cases i with
        | zero => rfl
        | succ i => exact absurd hpre (hleast 0 (Nat.succ_pos i))
    · rw [if_neg fun h => hpre (List.isPrefixOf_iff_prefix.mp h), Option.map_eq_some_iff]
      constructor
      · rintro ⟨k, hk, rfl⟩
        obtain ⟨hocc, hle, hleast⟩ := ih.mp hk
        refine ⟨hocc, Nat.succ_le_succ hle, fun j hj => ?_⟩
        cases j with
        | zero => exact hpre
        | succ j => exact hleast j (by omega)
      · rintro ⟨hocc, hle, hleast⟩
        cases i with
        | zero => exact absurd hocc hpre
        | succ i =>
          refine ⟨i, ih.mpr ⟨hocc, Nat.le_of_succ_le_succ hle, fun j hj => ?_⟩, rfl⟩
          exact hleast (j + 1) (by omega)

theorem find_eq_none_iff {pat s : List Char} : find pat s = none ↔ ¬pat <:+: s := by
  induction s with
  | nil =>
    unfold find
    cases pat <;> simp
  | cons c s ih =>
    unfold find
    rw [List.infix_cons_iff, not_or, ← ih]
    by_cases hpre : pat <+: c :: s
    · simp [List.isPrefixOf_iff_prefix.mpr hpre, hpre]
    · have hnot : pat.isPrefixOf (c :: s) = false := by
        rw [Bool.eq_false_iff]
        exact fun h => hpre (List.isPrefixOf_iff_prefix.mp h)
      simp [hnot, hpre]

theorem contains_iff {pat s : List Char} : contains pat s = true ↔ pat <:+: s := by
  unfold contains
  rw [← not_iff_not, ← find_eq_none_iff]
  simp

theorem mem_of_mem_replaceFrom {pat new s : List Char} {k : ℕ} {c : Char}
    (h : c ∈ replaceFrom pat new k s) : c ∈ s ∨ c ∈ new := by
  induction s generalizing k with
  | nil => cases k <;> simp [replaceFrom] at h
  | cons a s ih =>
    cases k with
    | succ k => exact (ih h).imp (List.mem_cons_of_mem _) id
    | zero =>
      unfold replaceFrom at h
      split_ifs at h
      · rcases List.mem_append.mp h with h | h
        · exact .inr h
        · exact (ih h).imp (List.mem_cons_of_mem _) id
      · rcases List.mem_cons.mp h with rfl | h
        · exact .inl List.mem_cons_self
        · exact (ih h).imp (List.mem_cons_of_mem _) id

theorem mem_of_mem_replaceAll {pat new s : List Char} {c : Char}
    (h : c ∈ replaceAll pat new s) : c ∈ s ∨ c ∈ new := mem_of_mem_replaceFrom h

theorem mem_of_mem_trimMatches {p : Char → Bool} {s : List Char} {c : Char}
    (h : c ∈ trimMatches p s) : c ∈ s :=
  (List.dropWhile_suffix p).subset ((List.rdropWhile_prefix p _).subset h)

theorem mem_of_mem_splitOnP {p : Char → Bool} {s w : List Char} (hw : w ∈ s.splitOnP p) {c : Char}
    (h : c ∈ w) : c ∈ s := by
  induction s generalizing w with
  | nil =>
    rw [List.splitOnP_nil, List.mem_singleton] at hw
    rw [hw] at h
    cases h
  | cons a s ih =>
    rw [List.splitOnP_cons_eq_if_modifyHead] at hw
    split_ifs at hw
    · rcases List.mem_cons.mp hw with rfl | hw
      · cases h
      · exact List.mem_cons_of_mem _ (ih hw h)
    · cases hs : s.splitOnP p with
      | nil => exact absurd hs (List.splitOnP_ne_nil p s)
      | cons w₀ ws =>
        rw [hs, List.modifyHead_cons] at hw
        rcases List.mem_cons.mp hw with rfl | hw
        · rcases List.mem_cons.mp h with rfl | h
          · exact List.mem_cons_self
          · exact List.mem_cons_of_mem _ (ih (by rw [hs]; exact List.mem_cons_self) h)
        · exact List.mem_cons_of_mem _ (ih (by rw [hs]; exact List.mem_cons_of_mem _ hw) h)

theorem not_of_mem_splitOnP {p : Char → Bool} {s w : List Char} (hw : w ∈ s.splitOnP p) {c : Char}
    (h : c ∈ w) : p c = false := by
  induction s generalizing w with
  | nil =>
    rw [List.splitOnP_nil, List.mem_singleton] at hw
    rw [hw] at h
    cases h
  | cons a s ih =>
    rw [List.splitOnP_cons_eq_if_modifyHead] at hw
    split_ifs at hw with ha
    · rcases List.mem_cons.mp hw with rfl | hw
      · cases h
      · exact ih hw h
    · cases hs : s.splitOnP p with
      | nil => exact absurd hs (List.splitOnP_ne_nil p s)
      | cons w₀ ws =>
        rw [hs, List.modifyHead_cons] at hw
        rcases List.mem_cons.mp hw with rfl | hw
        · rcases List.mem_cons.mp h with rfl | h
          · simpa using ha
          · exact ih (by rw [hs]; exact List.mem_cons_self) h
        · exact ih (by rw [hs]; exact List.mem_cons_of_mem _ hw) h

theorem not_whitespace_of_mem_splitWhitespace {s w : List Char} (hw : w ∈ splitWhitespace s)
    {c : Char} (h : c ∈ w) : isWhitespace c = false :=
  not_of_mem_splitOnP (List.mem_filter.mp hw).1 h

theorem mem_of_mem_splitWhitespace {s w : List Char} (hw : w ∈ splitWhitespace s) {c : Char}
    (h : c ∈ w) : c ∈ s := mem_of_mem_splitOnP (List.mem_filter.mp hw).1 h

theorem splitAtByte_eq_some_iff {n : ℕ} {s a b : List Char} :
    splitAtByte n s = some (a, b) ↔ s = a ++ b ∧ byteLength a = n := by
  induction s generalizing n a b with
  | nil =>
    cases n with
    | zero =>
      unfold splitAtByte
      constructor
      · rintro h
        cases h
        exact ⟨rfl, rfl⟩
      · rintro ⟨h, -⟩
        obtain ⟨rfl, rfl⟩ := List.append_eq_nil_iff.mp h.symm
        rfl
    | succ n =>
      unfold splitAtByte
      constructor
      · rintro h
        cases h
      · rintro ⟨h, hlen⟩
        obtain ⟨rfl, rfl⟩ := List.append_eq_nil_iff.mp h.symm
        cases hlen
  | cons c s ih =>
    have hpos := Char.utf8Size_pos c
    cases n with
    | zero =>
      unfold splitAtByte
      constructor
      · rintro h
        cases h
        exact ⟨rfl, rfl⟩
      · rintro ⟨h, hlen⟩
        cases a with
        | nil =>
          rw [List.nil_append] at h
          rw [h]
        | cons d a =>
          unfold byteLength at hlen
          rw [List.map_cons, List.sum_cons] at hlen
          have := Char.utf8Size_pos d
          omega
    | succ n =>
      unfold splitAtByte
      constructor
      · intro h
        split_ifs at h with hle
        obtain ⟨⟨a', b'⟩, hrest, heq⟩ := Option.map_eq_some_iff.mp h
        cases heq
        obtain ⟨rfl, hlen⟩ := ih.mp hrest
        refine ⟨rfl, ?_⟩
        unfold byteLength at hlen ⊢
        rw [List.map_cons, List.sum_cons, hlen]
        omega
      · rintro ⟨h, hlen⟩
        cases a with
        | nil => cases hlen
        | cons d a =>
          rw [List.cons_append] at h
          obtain ⟨rfl, rfl⟩ := List.cons.inj h
          unfold byteLength at hlen
          rw [List.map_cons, List.sum_cons] at hlen
          rw [if_pos (by omega), Option.map_eq_some_iff]
          exact ⟨(a, b), ih.mpr ⟨rfl, by unfold byteLength; omega⟩, rfl⟩

theorem byteLength_append (a b : List Char) : byteLength (a ++ b) = byteLength a + byteLength b := by
  unfold byteLength
  rw [List.map_append, List.sum_append]

theorem head?_splitOnP (p : Char → Bool) (s : List Char) :
    (s.splitOnP p).head? = some (s.takeWhile fun c => !p c) := by
  induction s with
  | nil => rfl
  | cons c s ih =>
    rw [List.splitOnP_cons_eq_if_modifyHead]
    by_cases hc : p c = true
    · rw [if_pos hc, List.head?_cons, List.takeWhile_cons_of_neg (by simp [hc])]
    · rw [if_neg hc, List.head?_modifyHead, ih, List.takeWhile_cons_of_pos (by simpa using hc)]
      rfl

theorem head?_splitWhitespace {s w : List Char} (hs : ∀ c ∈ s.head?, isWhitespace c = false)
    (h : (splitWhitespace s).head? = some w) : w = s.takeWhile fun c => !isWhitespace c := by
  unfold splitWhitespace at h
  cases s with
  | nil => cases h
  | cons c s =>
    have hhead := head?_splitOnP isWhitespace (c :: s)
    obtain ⟨words, hwords⟩ := List.head?_eq_some_iff.mp hhead
    rw [hwords, List.takeWhile_cons_of_pos (by simpa using hs c rfl)] at h
    rw [List.takeWhile_cons_of_pos (by simpa using hs c rfl)]
    exact (Option.some.inj h).symm

end Text
