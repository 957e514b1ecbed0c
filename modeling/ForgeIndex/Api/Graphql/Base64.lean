import ForgeIndex.Api.Graphql.Pagination

/-!
# The text of a cursor

What `base64_encode` writes is read back.  `base64_decode` reads other texts too: a byte outside of
the alphabet counts as six zero bits, and neither the padding nor the bits that are left over are
looked at.
-/

namespace ForgeIndex

namespace Pagination

/-- Every text is read back from its base64 form, and a cursor whose data the library writes and
reads back is decoded to its key, its column and its value. -/
theorem cursor_roundTrip :
    (∀ s : List Char, base64Decode (base64Encode s) = some s) ∧
    ∀ (toString : CursorData → Option (List Char)) (fromStr : List Char → Option CursorData)
      (pkValue orderCol : List Char) (orderVal : Json),
      (toString ⟨pkValue, orderCol, orderVal⟩).bind fromStr =
        some ⟨pkValue, orderCol, orderVal⟩ →
      decodeCursor fromStr (encodeCursor toString pkValue orderCol orderVal) =
        .ok ⟨pkValue, orderCol, orderVal⟩ := by
  refine ⟨base64Decode_base64Encode, ?_⟩
  intro toString fromStr pkValue orderCol orderVal hserde
  obtain ⟨json, hwrite, hread⟩ := Option.bind_eq_some_iff.mp hserde
  exact decodeCursor_encodeCursor (c := ⟨pkValue, orderCol, orderVal⟩) hwrite hread

/-- The data of a cursor behind the row with the key `é`. -/
def accented : CursorData := ⟨['é'], "id".toList, .null⟩

/-- Its JSON text. -/
def accentedJson : List Char :=
  "\x7b\"pk_value\":\"é\",\"order_col\":\"id\",\"order_val\":null\x7d".toList

theorem cursor_roundTrip_accented :
    base64Decode (base64Encode accentedJson) = some accentedJson ∧
    decodeCursor (fun text => if text = accentedJson then some accented else none)
        (encodeCursor (fun _ => some accentedJson) ['é'] "id".toList .null) = .ok accented :=
  ⟨cursor_roundTrip.1 accentedJson,
    cursor_roundTrip.2 (fun _ => some accentedJson) _ ['é'] "id".toList .null
      (show (if accentedJson = accentedJson then some accented else none) = some accented from
        if_pos rfl)⟩

/-- The six bits of a character of the alphabet, the highest one first. -/
def sextet (v : ℕ) : List Bool :=
  [v.testBit 5, v.testBit 4, v.testBit 3, v.testBit 2, v.testBit 1, v.testBit 0]

def ofBits (bits : List Bool) : ℕ := bits.foldl (fun n b => 2 * n + b.toNat) 0

/-- The bits in groups of eight; the last ones are dropped when they are fewer. -/
def octets : List Bool → List UInt8
  | b₇ :: b₆ :: b₅ :: b₄ :: b₃ :: b₂ :: b₁ :: b₀ :: rest =>
    UInt8.ofNat (ofBits [b₇, b₆, b₅, b₄, b₃, b₂, b₁, b₀]) :: octets rest
  | _ => []

/-- The bytes that a text spells without the `=` behind it. -/
def spelled (c : List Char) : List UInt8 :=
  octets (((Utf8.encode (Text.trimEndMatches (· == '=') c)).map charValue).flatMap sextet)

theorem charValue_lt (b : UInt8) : charValue b < 64 := by
  have hlength : chars.length = 64 := rfl
  unfold charValue
  dsimp only
  split_ifs with h
  · rw [hlength] at h
    exact h
  · omega

theorem ofBits_eq (b₇ b₆ b₅ b₄ b₃ b₂ b₁ b₀ : Bool) :
    ofBits [b₇, b₆, b₅, b₄, b₃, b₂, b₁, b₀] =
      128 * b₇.toNat + 64 * b₆.toNat + 32 * b₅.toNat + 16 * b₄.toNat + 8 * b₃.toNat +
        4 * b₂.toNat + 2 * b₁.toNat + b₀.toNat := by
  simp only [ofBits, List.foldl_cons, List.foldl_nil]
  omega

theorem ofNat_congr {m n : ℕ} (h : m % 256 = n % 256) : UInt8.ofNat m = UInt8.ofNat n := by
  apply UInt8.toNat_inj.mp
  rw [UInt8.toNat_ofNat', UInt8.toNat_ofNat', h]

theorem bits_eq : ∀ v < 64,
    32 * (v.testBit 5).toNat + 16 * (v.testBit 4).toNat + 8 * (v.testBit 3).toNat +
        4 * (v.testBit 2).toNat + 2 * (v.testBit 1).toNat + (v.testBit 0).toNat = v ∧
      2 * (v.testBit 5).toNat + (v.testBit 4).toNat = v / 16 ∧
      8 * (v.testBit 5).toNat + 4 * (v.testBit 4).toNat + 2 * (v.testBit 3).toNat +
        (v.testBit 2).toNat = v / 4 := by decide +kernel

section Octets

variable {v w : ℕ} (hv : v < 64) (hw : w < 64)

include hv hw

theorem octet_first : ofBits [v.testBit 5, v.testBit 4, v.testBit 3, v.testBit 2, v.testBit 1,
    v.testBit 0, w.testBit 5, w.testBit 4] = 4 * v + w / 16 := by
  have hall := (bits_eq v hv).1
  have hhigh := (bits_eq w hw).2.1
  rw [ofBits_eq]
  omega

theorem octet_second : ofBits [v.testBit 3, v.testBit 2, v.testBit 1, v.testBit 0, w.testBit 5,
    w.testBit 4, w.testBit 3, w.testBit 2] = 16 * (v % 16) + w / 4 := by
  obtain ⟨hall, hhigh, -⟩ := bits_eq v hv
  have hhigh' := (bits_eq w hw).2.2
  rw [ofBits_eq]
  omega

theorem octet_third : ofBits [v.testBit 1, v.testBit 0, w.testBit 5, w.testBit 4, w.testBit 3,
    w.testBit 2, w.testBit 1, w.testBit 0] = 64 * (v % 4) + w := by
  obtain ⟨hall, -, hhigh⟩ := bits_eq v hv
  have hall' := (bits_eq w hw).1
  rw [ofBits_eq]
  omega

end Octets

theorem nil_or_single {vs : List ℕ}
    (h₄ : ∀ v₀ v₁ v₂ v₃ rest, vs = v₀ :: v₁ :: v₂ :: v₃ :: rest → False)
    (h₃ : ∀ v₀ v₁ v₂, vs = [v₀, v₁, v₂] → False) (h₂ : ∀ v₀ v₁, vs = [v₀, v₁] → False) :
    vs = [] ∨ ∃ v, vs = [v] := by
  rcases vs with _ | ⟨v₀, _ | ⟨v₁, _ | ⟨v₂, _ | ⟨v₃, rest⟩⟩⟩⟩
  · exact .inl rfl
  · exact .inr ⟨v₀, rfl⟩
  · exact (h₂ v₀ v₁ rfl).elim
  · exact (h₃ v₀ v₁ v₂ rfl).elim
  · exact (h₄ v₀ v₁ v₂ v₃ rest rfl).elim

theorem decodeChunks_eq_octets {vs : List ℕ} (h : ∀ v ∈ vs, v < 64) :
    decodeChunks vs = octets (vs.flatMap sextet) := by
  induction vs using decodeChunks.induct with
  | case1 v₀ v₁ v₂ v₃ rest ih =>
    simp only [List.forall_mem_cons] at h
    obtain ⟨h₀, h₁, h₂, h₃, hrest⟩ := h
    have ht := triple_eq h₁ h₂ h₃ v₀
    rw [decodeChunks, ih hrest]
    simp only [List.flatMap_cons, sextet, List.cons_append, List.nil_append, octets]
    rw [octet_first h₀ h₁, octet_second h₁ h₂, octet_third h₂ h₃, ht, Nat.shiftRight_eq_div_pow,
      Nat.shiftRight_eq_div_pow]
    rw [ofNat_congr (m := _ / 2 ^ 16) (n := 4 * v₀ + v₁ / 16) (by omega),
      ofNat_congr (m := _ / 2 ^ 8) (n := 16 * (v₁ % 16) + v₂ / 4) (by omega),
      ofNat_congr (m := _ + v₃) (n := 64 * (v₂ % 4) + v₃) (by omega)]
  | case2 v₀ v₁ v₂ =>
    simp only [List.forall_mem_cons] at h
    obtain ⟨h₀, h₁, h₂, -⟩ := h
    have ht := triple_eq h₁ h₂ (by omega : 0 < 64) v₀
    simp only [decodeChunks, List.flatMap_cons, List.flatMap_nil, sextet, List.cons_append,
      List.nil_append, octets]
    rw [octet_first h₀ h₁, octet_second h₁ h₂, ht, Nat.shiftRight_eq_div_pow,
      Nat.shiftRight_eq_div_pow]
    rw [ofNat_congr (m := _ / 2 ^ 16) (n := 4 * v₀ + v₁ / 16) (by omega),
      ofNat_congr (m := _ / 2 ^ 8) (n := 16 * (v₁ % 16) + v₂ / 4) (by omega)]
  | case3 v₀ v₁ =>
    simp only [List.forall_mem_cons] at h
    obtain ⟨h₀, h₁, -⟩ := h
    have ht := triple_eq h₁ (by omega : 0 < 64) (by omega : 0 < 64) v₀
    simp only [decodeChunks, List.flatMap_cons, List.flatMap_nil, sextet, List.cons_append,
      List.nil_append, octets]
    rw [octet_first h₀ h₁, ht, Nat.shiftRight_eq_div_pow]
    rw [ofNat_congr (m := _ / 2 ^ 16) (n := 4 * v₀ + v₁ / 16) (by omega)]
  | case4 vs h₄ h₃ h₂ =>
    rcases nil_or_single h₄ h₃ h₂ with rfl | ⟨v, rfl⟩
    · rfl
    · rfl

theorem fromUtf8_eq_some_iff {bytes : List UInt8} {s : List Char} :
    fromUtf8 bytes = some s ↔ Utf8.encode s = bytes := by
  constructor
  · intro h
    unfold fromUtf8 at h
    dsimp only at h
    split_ifs at h with hbytes
    rw [← Option.some.inj h]
    exact hbytes
  · intro h
    rw [← h]
    exact fromUtf8_encode s

theorem base64Decode_eq_some_iff {c s : List Char} :
    base64Decode c = some s ↔ Utf8.encode s = spelled c := by
  have hsmall : ∀ v ∈ (Utf8.encode (Text.trimEndMatches (· == '=') c)).map charValue, v < 64 := by
    intro v hv
    obtain ⟨b, -, rfl⟩ := List.mem_map.mp hv
    exact charValue_lt b
  unfold base64Decode spelled
  rw [fromUtf8_eq_some_iff, decodeChunks_eq_octets hsmall]

/-- The characters in front of the padding. -/
def body (c : List Char) : List Char := Text.trimEndMatches (· == '=') c

/-- The number of a character of the alphabet. -/
def digit (x : Char) : ℕ := chars.idxOf x

/-- The bits that no byte uses are zero. -/
def UnusedZero (vs : List ℕ) : Prop :=
  ∀ v ∈ vs.getLast?, (vs.length % 4 = 2 → v % 16 = 0) ∧ (vs.length % 4 = 3 → v % 4 = 0)

/-- Characters of the alphabet, filled up to groups of four with at most two `=`, with zeros in the
bits that are left over. -/
structure Standard (c : List Char) : Prop where
  alphabet : ∀ x ∈ body c, x ∈ chars
  groups : c.length % 4 = 0
  padding : c.length ≤ (body c).length + 2
  unused : UnusedZero ((body c).map digit)

/-- The numbers that a text in the standard form is written from. -/
structure Whole (vs : List ℕ) : Prop where
  small : ∀ v ∈ vs, v < 64
  stray : vs.length % 4 ≠ 1
  unused : UnusedZero vs

def written (vs : List ℕ) : List Char :=
  vs.map charOf ++ List.replicate ((4 - vs.length % 4) % 4) '='

theorem digit_charOf : ∀ v < 64, digit (charOf v) = v := by decide +kernel

theorem charOf_mem : ∀ v < 64, charOf v ∈ chars := by decide +kernel

theorem charOf_digit {x : Char} (h : x ∈ chars) : charOf (digit x) = x ∧ digit x < 64 := by
  have hall : (chars.all fun x => charOf (digit x) == x && decide (digit x < 64)) = true := by
    decide +kernel
  simpa using List.all_eq_true.mp hall x h

theorem equals_not_mem (vs : List ℕ) : '=' ∉ vs.map charOf := by
  intro hmem
  obtain ⟨n, -, hn⟩ := List.mem_map.mp hmem
  exact (charOf_spec n).1 hn

theorem body_written (vs : List ℕ) : body (written vs) = vs.map charOf :=
  trimEndMatches_replicate (equals_not_mem vs) _

theorem spelled_written {vs : List ℕ} (h : ∀ v ∈ vs, v < 64) :
    spelled (written vs) = decodeChunks vs := by
  have hvalues : vs.map (· % 64) = vs :=
    (List.map_congr_left fun v hv => Nat.mod_eq_of_lt (h v hv)).trans (List.map_id vs)
  unfold spelled
  rw [show Text.trimEndMatches (· == '=') (written vs) = vs.map charOf from body_written vs,
    map_charValue_encode, hvalues, decodeChunks_eq_octets h]

theorem charOf_congr {m n : ℕ} (h : m % 64 = n % 64) : charOf m = charOf n := by
  have hmask (k : ℕ) : k &&& 0x3F = k % 64 := Nat.and_two_pow_sub_one_eq_mod k 6
  unfold charOf
  rw [hmask, hmask, h]

/-- The bytes of three make the bits again when those that are missing are zero. -/
theorem byteTriple_bytes {t : ℕ} (h : t < 2 ^ 24) :
    byteTriple (UInt8.ofNat (t >>> 16)).toNat (UInt8.ofNat (t >>> 8)).toNat
        (UInt8.ofNat t).toNat = t ∧
      (t % 2 ^ 8 = 0 → byteTriple (UInt8.ofNat (t >>> 16)).toNat (UInt8.ofNat (t >>> 8)).toNat
        0 = t) ∧
      (t % 2 ^ 16 = 0 → byteTriple (UInt8.ofNat (t >>> 16)).toNat 0 0 = t) := by
  have hsecond := (UInt8.ofNat (t >>> 8)).toNat_lt
  have hthird := (UInt8.ofNat t).toNat_lt
  have hzero : 0 < 256 := by omega
  rw [byteTriple_eq hsecond hthird, byteTriple_eq hsecond hzero, byteTriple_eq hzero hzero,
    UInt8.toNat_ofNat', UInt8.toNat_ofNat', UInt8.toNat_ofNat', Nat.shiftRight_eq_div_pow,
    Nat.shiftRight_eq_div_pow]
  refine ⟨?_, ?_, ?_⟩
  · omega
  · intro hunused
    omega
  · intro hunused
    omega

theorem triple_lt {v₀ v₁ v₂ v₃ : ℕ} (h₀ : v₀ < 64) (h₁ : v₁ < 64) (h₂ : v₂ < 64)
    (h₃ : v₃ < 64) : triple v₀ v₁ v₂ v₃ < 2 ^ 24 := by
  rw [triple_eq h₁ h₂ h₃]
  omega

theorem charOf_triple {v₁ v₂ v₃ : ℕ} (h₁ : v₁ < 64) (h₂ : v₂ < 64) (h₃ : v₃ < 64) (v₀ : ℕ) :
    charOf (triple v₀ v₁ v₂ v₃ >>> 18) = charOf v₀ ∧
      charOf (triple v₀ v₁ v₂ v₃ >>> 12) = charOf v₁ ∧
      charOf (triple v₀ v₁ v₂ v₃ >>> 6) = charOf v₂ ∧ charOf (triple v₀ v₁ v₂ v₃) = charOf v₃ := by
  rw [triple_eq h₁ h₂ h₃, Nat.shiftRight_eq_div_pow, Nat.shiftRight_eq_div_pow,
    Nat.shiftRight_eq_div_pow]
  refine ⟨?_, ?_, ?_, ?_⟩
  · apply charOf_congr
    omega
  · apply charOf_congr
    omega
  · apply charOf_congr
    omega
  · apply charOf_congr
    omega

theorem length_four (v₀ v₁ v₂ v₃ : ℕ) (rest : List ℕ) :
    (v₀ :: v₁ :: v₂ :: v₃ :: rest).length % 4 = rest.length % 4 := by
  simp only [List.length_cons]
  omega

theorem Whole.rest {v₀ v₁ v₂ v₃ : ℕ} {rest : List ℕ} (h : Whole (v₀ :: v₁ :: v₂ :: v₃ :: rest)) :
    Whole rest := by
  have hlength := length_four v₀ v₁ v₂ v₃ rest
  have hstray := h.stray
  rw [hlength] at hstray
  refine ⟨fun v hv => h.small v (by simp [hv]), hstray, ?_⟩
  intro v hv
  have hunused := h.unused v
  rw [hlength] at hunused
  cases rest with
  | nil => exact absurd hv (by simp)
  | cons w ws => exact hunused hv

theorem encodeChunks_decodeChunks {vs : List ℕ} (h : Whole vs) :
    encodeChunks (decodeChunks vs) = written vs := by
  induction vs using decodeChunks.induct with
  | case1 v₀ v₁ v₂ v₃ rest ih =>
    have hsmall := h.small
    simp only [List.forall_mem_cons] at hsmall
    obtain ⟨h₀, h₁, h₂, h₃, -⟩ := hsmall
    have hbytes := (byteTriple_bytes (triple_lt h₀ h₁ h₂ h₃)).1
    obtain ⟨c₀, c₁, c₂, c₃⟩ := charOf_triple h₁ h₂ h₃ v₀
    rw [decodeChunks, encodeChunks, hbytes, ih h.rest, c₀, c₁, c₂, c₃]
    unfold written
    rw [length_four]
    rfl
  | case2 v₀ v₁ v₂ =>
    have hsmall := h.small
    simp only [List.forall_mem_cons] at hsmall
    obtain ⟨h₀, h₁, h₂, -⟩ := hsmall
    have hzero : 0 < 64 := by omega
    have hlast : v₂ % 4 = 0 := (h.unused v₂ rfl).2 rfl
    have hunused : triple v₀ v₁ v₂ 0 % 2 ^ 8 = 0 := by
      rw [triple_eq h₁ h₂ hzero]
      omega
    have hbytes := (byteTriple_bytes (triple_lt h₀ h₁ h₂ hzero)).2.1 hunused
    obtain ⟨c₀, c₁, c₂, -⟩ := charOf_triple h₁ h₂ hzero v₀
    rw [decodeChunks, encodeChunks, hbytes, c₀, c₁, c₂]
    rfl
  | case3 v₀ v₁ =>
    have hsmall := h.small
    simp only [List.forall_mem_cons] at hsmall
    obtain ⟨h₀, h₁, -⟩ := hsmall
    have hzero : 0 < 64 := by omega
    have hlast : v₁ % 16 = 0 := (h.unused v₁ rfl).1 rfl
    have hunused : triple v₀ v₁ 0 0 % 2 ^ 16 = 0 := by
      rw [triple_eq h₁ hzero hzero]
      omega
    have hbytes := (byteTriple_bytes (triple_lt h₀ h₁ hzero hzero)).2.2 hunused
    obtain ⟨c₀, c₁, -⟩ := charOf_triple h₁ hzero hzero v₀
    rw [decodeChunks, encodeChunks, hbytes, c₀, c₁]
    rfl
  | case4 vs h₄ h₃ h₂ =>
    rcases nil_or_single h₄ h₃ h₂ with rfl | ⟨v, rfl⟩
    · rfl
    · exact absurd rfl h.stray

theorem whole_groups (bytes : List UInt8) : Whole ((groups bytes).map (· % 64)) := by
  have hsmall : ∀ v ∈ (groups bytes).map (· % 64), v < 64 := by
    intro v hv
    obtain ⟨n, -, rfl⟩ := List.mem_map.mp hv
    exact Nat.mod_lt n (by omega)
  induction bytes using groups.induct with
  | case1 b₀ b₁ b₂ rest ih =>
    rw [groups] at hsmall ⊢
    simp only [List.map_cons] at hsmall ⊢
    have hrest := ih fun v hv => hsmall v (by simp [hv])
    refine ⟨hsmall, ?_, ?_⟩
    · rw [length_four]
      exact hrest.stray
    · intro v hv
      rw [length_four]
      cases hcases : (groups rest).map (· % 64) with
      | nil => exact ⟨fun h => absurd h (by simp), fun h => absurd h (by simp)⟩
      | cons w ws =>
        rw [hcases] at hv hrest
        exact hrest.unused v hv
  | case2 b₀ b₁ =>
    have hzero : 0 < 256 := by omega
    have ht := byteTriple_eq b₁.toNat_lt hzero b₀.toNat
    refine ⟨hsmall, by simp [groups], ?_⟩
    intro v hv
    refine ⟨fun h => absurd h (by simp [groups]), fun _ => ?_⟩
    have hlast : v = byteTriple b₀.toNat b₁.toNat 0 >>> 6 % 64 := (Option.some.inj hv).symm
    rw [hlast, ht, Nat.shiftRight_eq_div_pow]
    omega
  | case3 b₀ =>
    have hzero : 0 < 256 := by omega
    have ht := byteTriple_eq hzero hzero b₀.toNat
    refine ⟨hsmall, by simp [groups], ?_⟩
    intro v hv
    refine ⟨fun _ => ?_, fun h => absurd h (by simp [groups])⟩
    have hlast : v = byteTriple b₀.toNat 0 0 >>> 12 % 64 := (Option.some.inj hv).symm
    rw [hlast, ht, Nat.shiftRight_eq_div_pow]
    omega
  | case4 => exact ⟨hsmall, by simp [groups], fun v hv => by cases hv⟩

theorem encodeChunks_eq_written (bytes : List UInt8) :
    encodeChunks bytes = written ((groups bytes).map (· % 64)) := by
  have h := encodeChunks_decodeChunks (whole_groups bytes)
  rw [decodeChunks_groups] at h
  exact h

theorem Standard.eq_written {c : List Char} (h : Standard c) :
    Whole ((body c).map digit) ∧ c = written ((body c).map digit) := by
  have hsplit : body c ++ c.rtakeWhile (· == '=') = c := List.rdropWhile_append_rtakeWhile
  have hpad : c.rtakeWhile (· == '=') = List.replicate (c.rtakeWhile (· == '=')).length '=' := by
    apply List.eq_replicate_of_mem
    intro x hx
    have hequals := List.mem_rtakeWhile_imp hx
    exact beq_iff_eq.mp hequals
  have hlength : (body c).length + (c.rtakeWhile (· == '=')).length = c.length := by
    rw [← List.length_append, hsplit]
  have hgroups := h.groups
  have hpadding := h.padding
  have hcount : (c.rtakeWhile (· == '=')).length = (4 - (body c).length % 4) % 4 := by omega
  have hdigits : ((body c).map digit).map charOf = body c := by
    rw [List.map_map]
    exact (List.map_congr_left fun x hx => (charOf_digit (h.alphabet x hx)).1).trans
      (List.map_id _)
  refine ⟨⟨?_, ?_, h.unused⟩, ?_⟩
  · intro v hv
    obtain ⟨x, hx, rfl⟩ := List.mem_map.mp hv
    exact (charOf_digit (h.alphabet x hx)).2
  · rw [List.length_map]
    omega
  · unfold written
    rw [hdigits, List.length_map, ← hcount, ← hpad]
    exact hsplit.symm

theorem Whole.standard {vs : List ℕ} (h : Whole vs) : Standard (written vs) := by
  have hstray := h.stray
  have hdigits : (vs.map charOf).map digit = vs := by
    rw [List.map_map]
    exact (List.map_congr_left fun v hv => digit_charOf v (h.small v hv)).trans (List.map_id _)
  have hlength : (written vs).length = vs.length + (4 - vs.length % 4) % 4 := by
    unfold written
    rw [List.length_append, List.length_map, List.length_replicate]
  refine ⟨?_, ?_, ?_, ?_⟩
  · intro x hx
    rw [body_written] at hx
    obtain ⟨v, hv, rfl⟩ := List.mem_map.mp hx
    exact charOf_mem v (h.small v hv)
  · rw [hlength]
    omega
  · rw [hlength, body_written, List.length_map]
    omega
  · rw [body_written, hdigits]
    exact h.unused

theorem standard_iff {c : List Char} : Standard c ↔ ∃ vs, Whole vs ∧ c = written vs := by
  constructor
  · exact fun h => ⟨_, h.eq_written⟩
  · intro ⟨vs, hvs, hc⟩
    rw [hc]
    exact hvs.standard

/-- What is read is written as it was exactly when the text has the standard form, unless its bits
are not those of a text at all. -/
theorem base64Decode_canonical_iff (c : List Char) :
    (∀ s, base64Decode c = some s → base64Encode s = c) ↔
      Standard c ∨ ∀ s, Utf8.encode s ≠ spelled c := by
  have hencode {s : List Char} (hs : Utf8.encode s = spelled c) :
      base64Encode s = encodeChunks (spelled c) := congrArg encodeChunks hs
  constructor
  · intro h
    by_cases hread : ∃ s, Utf8.encode s = spelled c
    · obtain ⟨s, hs⟩ := hread
      have hc := h s (base64Decode_eq_some_iff.mpr hs)
      rw [hencode hs, encodeChunks_eq_written] at hc
      exact Or.inl (standard_iff.mpr ⟨_, whole_groups _, hc.symm⟩)
    · exact Or.inr (not_exists.mp hread)
  · intro h s hs
    have hbytes := base64Decode_eq_some_iff.mp hs
    rcases h with hstandard | hnone
    · obtain ⟨vs, hvs, rfl⟩ := standard_iff.mp hstandard
      rw [hencode hbytes, spelled_written hvs.small, encodeChunks_decodeChunks hvs]
    · exact absurd hbytes (hnone s)

/-- Four characters outside of the alphabet are read as three zero bytes. -/
theorem base64Decode_not_canonical :
    ¬∀ c s : List Char, base64Decode c = some s → base64Encode s = c := by
  intro h
  have hencode := h "!!!!".toList [Char.ofNat 0, Char.ofNat 0, Char.ofNat 0] (by decide +kernel)
  revert hencode
  decide +kernel

end Pagination

end ForgeIndex
