import ForgeIndex.Lib.Text
import ForgeIndex.Lib.Utf8

/-!
# Positions in bytes

Slices and bytes of a text as a UTF-8 string library gives them: positions count in bytes, and one
that is out of range, or inside of a character for a slice, has no answer.
-/

namespace Text

/-- `&s[n..]`. -/
def sliceFrom (n : ℕ) (s : List Char) : Option (List Char) := (splitAtByte n s).map Prod.snd

/-- `&s[..n]`. -/
def sliceTo (n : ℕ) (s : List Char) : Option (List Char) := (splitAtByte n s).map Prod.fst

/-- `s.as_bytes()[i]`. -/
def byteAt (s : List Char) (i : ℕ) : Option UInt8 := (Utf8.encode s)[i]?

/-- `s.find(pat)`, a position in bytes. -/
def findByte (pat s : List Char) : Option ℕ := (find pat s).map fun i => byteLength (s.take i)

theorem splitAtByte_append (a b : List Char) : splitAtByte (byteLength a) (a ++ b) = some (a, b) :=
  splitAtByte_eq_some_iff.mpr ⟨rfl, rfl⟩

theorem sliceFrom_append (a b : List Char) : sliceFrom (byteLength a) (a ++ b) = some b := by
  unfold sliceFrom
  rw [splitAtByte_append]
  rfl

theorem sliceTo_append (a b : List Char) : sliceTo (byteLength a) (a ++ b) = some a := by
  unfold sliceTo
  rw [splitAtByte_append]
  rfl

theorem encode_append (a b : List Char) : Utf8.encode (a ++ b) = Utf8.encode a ++ Utf8.encode b :=
  List.flatMap_append

theorem length_encode (s : List Char) : (Utf8.encode s).length = byteLength s := by
  unfold Utf8.encode byteLength
  rw [List.length_flatMap]
  congr 1
  apply List.map_congr_left
  intro c _
  exact String.length_utf8EncodeChar c

theorem encode_singleton (c : Char) : Utf8.encode [c] = String.utf8EncodeChar c :=
  List.append_nil _

theorem byteAt_first (a b : List Char) (c : Char) :
    ∃ byte ∈ String.utf8EncodeChar c, byteAt (a ++ c :: b) (byteLength a) = some byte := by
  have hpos : 0 < (String.utf8EncodeChar c).length := by
    rw [String.length_utf8EncodeChar]
    exact c.utf8Size_pos
  refine ⟨(String.utf8EncodeChar c)[0], List.getElem_mem hpos, ?_⟩
  have hsplit : a ++ c :: b = a ++ ([c] ++ b) := rfl
  unfold byteAt
  rw [hsplit, encode_append, encode_append, encode_singleton,
    List.getElem?_append_right (by rw [length_encode]), length_encode, Nat.sub_self,
    List.getElem?_append_left hpos, List.getElem?_eq_getElem hpos]

theorem byteAt_last (a b : List Char) (c : Char) :
    ∃ byte ∈ String.utf8EncodeChar c,
      byteAt (a ++ c :: b) (byteLength (a ++ [c]) - 1) = some byte := by
  have hpos : 0 < (String.utf8EncodeChar c).length := by
    rw [String.length_utf8EncodeChar]
    exact c.utf8Size_pos
  have hlast : (String.utf8EncodeChar c).length - 1 < (String.utf8EncodeChar c).length := by omega
  refine ⟨(String.utf8EncodeChar c)[(String.utf8EncodeChar c).length - 1],
    List.getElem_mem hlast, ?_⟩
  have hlength : byteLength (a ++ [c]) = byteLength a + (String.utf8EncodeChar c).length := by
    rw [byteLength_append, ← length_encode [c], encode_singleton]
  have hindex : byteLength (a ++ [c]) - 1 - byteLength a =
      (String.utf8EncodeChar c).length - 1 := by omega
  have hsplit : a ++ c :: b = a ++ ([c] ++ b) := rfl
  unfold byteAt
  rw [hsplit, encode_append, encode_append, encode_singleton,
    List.getElem?_append_right (by rw [length_encode]; omega), length_encode, hindex,
    List.getElem?_append_left hlast, List.getElem?_eq_getElem hlast]

theorem utf8EncodeChar_ascii {c : Char} (h : c.toNat < 128) :
    String.utf8EncodeChar c = [UInt8.ofNat c.toNat] := by
  unfold String.utf8EncodeChar
  have hle : c.val.toNat ≤ 127 := Nat.le_of_lt_succ h
  rw [if_pos hle]
  rfl

theorem le_of_mem_utf8EncodeChar {c : Char} (h : 128 ≤ c.toNat) {byte : UInt8}
    (hbyte : byte ∈ String.utf8EncodeChar c) : 128 ≤ byte.toNat := by
  have hvalid : c.val.toNat < 0xD800 ∨ (0xDFFF < c.val.toNat ∧ c.val.toNat < 0x110000) := c.valid
  have hwide : 128 ≤ c.val.toNat := h
  unfold String.utf8EncodeChar at hbyte
  dsimp only at hbyte
  generalize c.val.toNat = v at hvalid hwide hbyte
  split_ifs at hbyte with h₁ h₂ h₃
  · omega
  all_goals
    simp only [List.mem_cons, List.not_mem_nil, or_false] at hbyte
  · rcases hbyte with rfl | rfl <;> rw [Utf8.toNat_ofNat_of_lt (by omega)] <;> omega
  · rcases hbyte with rfl | rfl | rfl <;> rw [Utf8.toNat_ofNat_of_lt (by omega)] <;> omega
  · rcases hbyte with rfl | rfl | rfl | rfl <;> rw [Utf8.toNat_ofNat_of_lt (by omega)] <;> omega

theorem find_split {pat s : List Char} {i : ℕ} (h : find pat s = some i) :
    s = s.take i ++ (pat ++ s.drop (i + pat.length)) := by
  obtain ⟨rest, hrest⟩ := (find_eq_some_iff.mp h).1
  have hdrop : s.drop (i + pat.length) = rest := by
    rw [← List.drop_drop, ← hrest, List.drop_left]
  rw [hdrop, hrest, List.take_append_drop]

theorem toNat_ofNat_ascii {c : Char} (h : c.toNat < 128) : (UInt8.ofNat c.toNat).toNat = c.toNat :=
  Utf8.toNat_ofNat_of_lt (by omega)

theorem encode_cons (c : Char) (s : List Char) :
    Utf8.encode (c :: s) = String.utf8EncodeChar c ++ Utf8.encode s := List.flatMap_cons

theorem utf8EncodeChar_ne_nil (c : Char) : String.utf8EncodeChar c ≠ [] := by
  intro h
  have hlength := String.length_utf8EncodeChar c
  have hpos := c.utf8Size_pos
  rw [h, List.length_nil] at hlength
  omega

theorem head_of_ascii {c d : Char} (hc : c.toNat < 128) {r t : List UInt8}
    (h : UInt8.ofNat c.toNat :: r = String.utf8EncodeChar d ++ t) : c = d ∧ r = t := by
  by_cases hd : d.toNat < 128
  · rw [utf8EncodeChar_ascii hd, List.singleton_append, List.cons.injEq] at h
    have hnat := congrArg UInt8.toNat h.1
    rw [toNat_ofNat_ascii hc, toNat_ofNat_ascii hd] at hnat
    exact ⟨Char.toNat_inj.mp hnat, h.2⟩
  · cases hbytes : String.utf8EncodeChar d with
    | nil => exact absurd hbytes (utf8EncodeChar_ne_nil d)
    | cons b bs =>
      have hb := le_of_mem_utf8EncodeChar (Nat.not_lt.mp hd) (hbytes ▸ List.mem_cons_self)
      rw [hbytes, List.cons_append, List.cons.injEq] at h
      rw [← h.1, toNat_ofNat_ascii hc] at hb
      omega

theorem prefix_of_encode_prefix {k u : List Char} (hascii : ∀ c ∈ k, c.toNat < 128)
    (h : Utf8.encode k <+: Utf8.encode u) : k <+: u := by
  induction k generalizing u with
  | nil => exact List.nil_prefix
  | cons c k ih =>
    rw [List.forall_mem_cons] at hascii
    obtain ⟨rest, hrest⟩ := h
    rw [encode_cons, utf8EncodeChar_ascii hascii.1, List.append_assoc, List.singleton_append] at hrest
    cases u with
    | nil => cases hrest
    | cons d u =>
      rw [encode_cons] at hrest
      obtain ⟨rfl, htail⟩ := head_of_ascii hascii.1 hrest
      exact List.cons_prefix_cons.mpr ⟨rfl, ih hascii.2 ⟨rest, htail⟩⟩

theorem byteLength_cons (c : Char) (s : List Char) :
    byteLength (c :: s) = (String.utf8EncodeChar c).length + byteLength s := by
  rw [← length_encode, encode_cons, List.length_append, length_encode]

theorem le_of_inside {d : Char} {p : ℕ} (hp : p ≠ 0) {b : UInt8}
    (h : b ∈ (String.utf8EncodeChar d).drop p) : 128 ≤ b.toNat := by
  have hpos := List.length_pos_of_mem h
  rw [List.length_drop] at hpos
  by_cases hd : d.toNat < 128
  · rw [utf8EncodeChar_ascii hd, List.length_singleton] at hpos
    omega
  · exact le_of_mem_utf8EncodeChar (Nat.not_lt.mp hd) (List.mem_of_mem_drop h)

theorem split_of_encode_prefix {c : Char} {k u : List Char}
    (hascii : ∀ x ∈ c :: k, x.toNat < 128) {p : ℕ}
    (h : Utf8.encode (c :: k) <+: (Utf8.encode u).drop p) :
    ∃ a b, u = a ++ (c :: k ++ b) ∧ byteLength a = p := by
  induction u generalizing p with
  | nil =>
    have hnil : Utf8.encode (c :: k) = [] := by
      rw [show (Utf8.encode []).drop p = [] from List.drop_nil] at h
      exact List.prefix_nil.mp h
    rw [encode_cons] at hnil
    exact absurd (List.append_eq_nil_iff.mp hnil).1 (utf8EncodeChar_ne_nil c)
  | cons d u ih =>
    by_cases hp : p = 0
    · subst hp
      obtain ⟨b, hb⟩ := prefix_of_encode_prefix hascii h
      exact ⟨[], b, hb.symm, rfl⟩
    · rw [encode_cons d] at h
      by_cases hinside : p < (String.utf8EncodeChar d).length
      · rw [List.drop_append_of_le_length (Nat.le_of_lt hinside), encode_cons] at h
        have hc := hascii c List.mem_cons_self
        cases hbytes : (String.utf8EncodeChar d).drop p with
        | nil =>
          have hlength := congrArg List.length hbytes
          rw [List.length_drop, List.length_nil] at hlength
          omega
        | cons b bs =>
          have hb := le_of_inside hp (hbytes ▸ List.mem_cons_self)
          rw [hbytes, utf8EncodeChar_ascii hc, List.singleton_append, List.cons_append,
            List.cons_prefix_cons] at h
          rw [← h.1, toNat_ofNat_ascii hc] at hb
          omega
      · rw [List.drop_append, List.drop_eq_nil_of_le (Nat.not_lt.mp hinside), List.nil_append] at h
        obtain ⟨a, b, hsplit, hlength⟩ := ih h
        refine ⟨d :: a, b, congrArg (List.cons d) hsplit, ?_⟩
        rw [byteLength_cons, hlength]
        omega

end Text
