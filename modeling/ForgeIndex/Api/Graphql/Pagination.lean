import ForgeIndex.Abi.Parser
import ForgeIndex.Lib.Text

/-!
# Cursors

`forge-index-api/src/graphql/pagination.rs`.  The writer and the reader of JSON texts come from a
library and are parameters.
-/

namespace ForgeIndex

open Text

/-- The error of `decode_cursor`. -/
inductive ApiError where
  | badRequest (message : String)
  deriving DecidableEq, Repr

structure CursorData where
  pkValue : List Char
  orderCol : List Char
  orderVal : Json

namespace Pagination

/-- `CHARS` of the two base64 functions. -/
def chars : List Char :=
  "ABCDEFGHIJKLMNOPQRSTUVWXYZabcdefghijklmnopqrstuvwxyz0123456789+/".toList

/-- `CHARS[(n & 0x3F) as usize]`. -/
def charOf (n : ℕ) : Char := chars[n &&& 0x3F]?.getD 'A'

/-- The bits of a chunk of three bytes, the missing ones as zeros. -/
def byteTriple (b₀ b₁ b₂ : ℕ) : ℕ := b₀ <<< 16 ||| b₁ <<< 8 ||| b₂

/-- The characters of the chunks of three; the last one is filled up with `=`. -/
def encodeChunks : List UInt8 → List Char
  | b₀ :: b₁ :: b₂ :: rest =>
    let t := byteTriple b₀.toNat b₁.toNat b₂.toNat
    charOf (t >>> 18) :: charOf (t >>> 12) :: charOf (t >>> 6) :: charOf t :: encodeChunks rest
  | [b₀, b₁] =>
    let t := byteTriple b₀.toNat b₁.toNat 0
    [charOf (t >>> 18), charOf (t >>> 12), charOf (t >>> 6), '=']
  | [b₀] =>
    let t := byteTriple b₀.toNat 0 0
    [charOf (t >>> 18), charOf (t >>> 12), '=', '=']
  | [] => []

def base64Encode (input : List Char) : List Char := encodeChunks (Utf8.encode input)

/-- `encode_cursor` over `serde_json::to_string`. -/
def encodeCursor (toString : CursorData → Option (List Char)) (pkValue orderCol : List Char)
    (orderVal : Json) : List Char :=
  base64Encode ((toString ⟨pkValue, orderCol, orderVal⟩).getD [])

/-- The value of an input byte; a byte outside of the alphabet counts as zero. -/
def charValue (b : UInt8) : ℕ :=
  let i := chars.findIdx fun c => c.toNat == b.toNat
  if i < chars.length then i else 0

/-- The bits of a chunk, the missing characters as zeros. -/
def triple (b₀ b₁ b₂ b₃ : ℕ) : ℕ := b₀ <<< 18 ||| b₁ <<< 12 ||| b₂ <<< 6 ||| b₃

/-- The bytes of the chunks of four; a last chunk of one character ends the loop. -/
def decodeChunks : List ℕ → List UInt8
  | b₀ :: b₁ :: b₂ :: b₃ :: rest =>
    let t := triple b₀ b₁ b₂ b₃
    UInt8.ofNat (t >>> 16) :: UInt8.ofNat (t >>> 8) :: UInt8.ofNat t :: decodeChunks rest
  | [b₀, b₁, b₂] =>
    let t := triple b₀ b₁ b₂ 0
    [UInt8.ofNat (t >>> 16), UInt8.ofNat (t >>> 8)]
  | [b₀, b₁] => [UInt8.ofNat (triple b₀ b₁ 0 0 >>> 16)]
  | _ => []

/-- `String::from_utf8`: the bytes must be those of the characters that they decode to. -/
def fromUtf8 (bytes : List UInt8) : Option (List Char) :=
  let s := Utf8.decodeLossy bytes
  if Utf8.encode s = bytes then some s else none

def base64Decode (input : List Char) : Option (List Char) :=
  fromUtf8 (decodeChunks ((Utf8.encode (trimEndMatches (· == '=') input)).map charValue))

/-- `decode_cursor` over `serde_json::from_str`. -/
def decodeCursor (fromStr : List Char → Option CursorData) (cursor : List Char) :
    Except ApiError CursorData :=
  match base64Decode cursor with
  | none => .error (.badRequest "Invalid cursor encoding")
  | some json =>
    match fromStr json with
    | none => .error (.badRequest "Invalid cursor format")
    | some data => .ok data

/-- The groups of six bits of the chunks of three; the bits above them are cut off later. -/
def groups : List UInt8 → List ℕ
  | b₀ :: b₁ :: b₂ :: rest =>
    let t := byteTriple b₀.toNat b₁.toNat b₂.toNat
    t >>> 18 :: t >>> 12 :: t >>> 6 :: t :: groups rest
  | [b₀, b₁] =>
    let t := byteTriple b₀.toNat b₁.toNat 0
    [t >>> 18, t >>> 12, t >>> 6]
  | [b₀] =>
    let t := byteTriple b₀.toNat 0 0
    [t >>> 18, t >>> 12]
  | [] => []

theorem encodeChunks_eq (bytes : List UInt8) :
    ∃ k, encodeChunks bytes = (groups bytes).map charOf ++ List.replicate k '=' := by
  induction bytes using encodeChunks.induct with
  | case1 b₀ b₁ b₂ rest ih =>
    obtain ⟨k, hk⟩ := ih
    refine ⟨k, ?_⟩
    rw [encodeChunks, groups, hk]
    rfl
  | case2 b₀ b₁ => exact ⟨1, rfl⟩
  | case3 b₀ => exact ⟨2, rfl⟩
  | case4 => exact ⟨0, rfl⟩

theorem charOf_spec (n : ℕ) :
    charOf n ≠ '=' ∧ (String.utf8EncodeChar (charOf n)).map charValue = [n % 64] := by
  have hall : ∀ m < 64, (chars[m]?.getD 'A') ≠ '=' ∧
      (String.utf8EncodeChar (chars[m]?.getD 'A')).map charValue = [m] := by decide +kernel
  have hmask : n &&& 0x3F = n % 64 := Nat.and_two_pow_sub_one_eq_mod n 6
  unfold charOf
  rw [hmask]
  exact hall (n % 64) (Nat.mod_lt n (by omega))

theorem map_charValue_encode (gs : List ℕ) :
    (Utf8.encode (gs.map charOf)).map charValue = gs.map (· % 64) := by
  induction gs with
  | nil => rfl
  | cons g gs ih =>
    unfold Utf8.encode at ih ⊢
    rw [List.map_cons, List.flatMap_cons, List.map_append, (charOf_spec g).2, ih]
    rfl

theorem trimEndMatches_replicate {s : List Char} {c : Char} (hs : c ∉ s) (k : ℕ) :
    trimEndMatches (· == c) (s ++ List.replicate k c) = s := by
  unfold trimEndMatches
  induction k with
  | zero =>
    rw [List.replicate_zero, List.append_nil]
    apply List.rdropWhile_eq_self_iff.mpr
    intro hne hlast
    have hmem := List.getLast_mem hne
    rw [beq_iff_eq.mp hlast] at hmem
    exact hs hmem
  | succ k ih =>
    rw [List.replicate_succ', ← List.append_assoc, List.rdropWhile_concat_pos _ _ _ (by simp)]
    exact ih

theorem triple_eq {b₁ b₂ b₃ : ℕ} (h₁ : b₁ < 64) (h₂ : b₂ < 64) (h₃ : b₃ < 64) (b₀ : ℕ) :
    triple b₀ b₁ b₂ b₃ = 2 ^ 18 * b₀ + 2 ^ 12 * b₁ + 2 ^ 6 * b₂ + b₃ := by
  have hfirst : b₀ <<< 18 ||| b₁ <<< 12 = 2 ^ 18 * b₀ + 2 ^ 12 * b₁ := by
    rw [Nat.shiftLeft_eq, Nat.shiftLeft_eq, Nat.mul_comm b₀, Nat.mul_comm b₁]
    exact (Nat.two_pow_add_eq_or_of_lt (by omega) b₀).symm
  have hsecond : (2 ^ 18 * b₀ + 2 ^ 12 * b₁) ||| b₂ <<< 6 =
      2 ^ 18 * b₀ + 2 ^ 12 * b₁ + 2 ^ 6 * b₂ := by
    have hadd := Nat.two_pow_add_eq_or_of_lt (i := 12) (b := 2 ^ 6 * b₂) (by omega)
      (2 ^ 6 * b₀ + b₁)
    rw [Nat.shiftLeft_eq, Nat.mul_comm b₂]
    have hsplit : 2 ^ 12 * (2 ^ 6 * b₀ + b₁) = 2 ^ 18 * b₀ + 2 ^ 12 * b₁ := by omega
    rw [hsplit] at hadd
    exact hadd.symm
  have hthird := Nat.two_pow_add_eq_or_of_lt (i := 6) h₃ (2 ^ 12 * b₀ + 2 ^ 6 * b₁ + b₂)
  have hsplit : 2 ^ 6 * (2 ^ 12 * b₀ + 2 ^ 6 * b₁ + b₂) =
      2 ^ 18 * b₀ + 2 ^ 12 * b₁ + 2 ^ 6 * b₂ := by omega
  unfold triple
  rw [hfirst, hsecond, ← hsplit]
  exact hthird.symm

theorem byteTriple_eq {b₁ b₂ : ℕ} (h₁ : b₁ < 256) (h₂ : b₂ < 256) (b₀ : ℕ) :
    byteTriple b₀ b₁ b₂ = 2 ^ 16 * b₀ + 2 ^ 8 * b₁ + b₂ := by
  have hfirst : b₀ <<< 16 ||| b₁ <<< 8 = 2 ^ 16 * b₀ + 2 ^ 8 * b₁ := by
    rw [Nat.shiftLeft_eq, Nat.shiftLeft_eq, Nat.mul_comm b₀, Nat.mul_comm b₁]
    exact (Nat.two_pow_add_eq_or_of_lt (by omega) b₀).symm
  have hsecond := Nat.two_pow_add_eq_or_of_lt (i := 8) h₂ (2 ^ 8 * b₀ + b₁)
  have hsplit : 2 ^ 8 * (2 ^ 8 * b₀ + b₁) = 2 ^ 16 * b₀ + 2 ^ 8 * b₁ := by omega
  unfold byteTriple
  rw [hfirst, ← hsplit]
  exact hsecond.symm

theorem triple_groups {t : ℕ} (h : t < 2 ^ 24) :
    triple (t >>> 18 % 64) (t >>> 12 % 64) (t >>> 6 % 64) (t % 64) = t := by
  rw [triple_eq (Nat.mod_lt _ (by omega)) (Nat.mod_lt _ (by omega)) (Nat.mod_lt _ (by omega))]
  rw [Nat.shiftRight_eq_div_pow, Nat.shiftRight_eq_div_pow, Nat.shiftRight_eq_div_pow]
  omega

theorem ofNat_eq {n : ℕ} {b : UInt8} (h : n % 256 = b.toNat) : UInt8.ofNat n = b := by
  apply UInt8.toNat_inj.mp
  rw [UInt8.toNat_ofNat', h]

theorem decodeChunks_groups (bytes : List UInt8) :
    decodeChunks ((groups bytes).map (· % 64)) = bytes := by
  induction bytes using groups.induct with
  | case1 b₀ b₁ b₂ rest ih =>
    have h₀ := b₀.toNat_lt
    have h₁ := b₁.toNat_lt
    have h₂ := b₂.toNat_lt
    have ht := byteTriple_eq h₁ h₂ b₀.toNat
    rw [groups]
    generalize byteTriple b₀.toNat b₁.toNat b₂.toNat = t at ht ⊢
    have hback := triple_groups (t := t) (by omega)
    simp only [List.map_cons]
    rw [decodeChunks, hback, ih, Nat.shiftRight_eq_div_pow, Nat.shiftRight_eq_div_pow]
    rw [ofNat_eq (b := b₀) (by omega), ofNat_eq (b := b₁) (by omega), ofNat_eq (b := b₂) (by omega)]
  | case2 b₀ b₁ =>
    have h₀ := b₀.toNat_lt
    have h₁ := b₁.toNat_lt
    have hzero : 0 < 256 := by omega
    have ht := byteTriple_eq h₁ hzero b₀.toNat
    rw [groups]
    generalize byteTriple b₀.toNat b₁.toNat 0 = t at ht ⊢
    have hback := triple_groups (t := t) (by omega)
    have hlast : t % 64 = 0 := by omega
    rw [hlast] at hback
    simp only [List.map_cons, List.map_nil]
    rw [decodeChunks, hback, Nat.shiftRight_eq_div_pow, Nat.shiftRight_eq_div_pow]
    rw [ofNat_eq (b := b₀) (by omega), ofNat_eq (b := b₁) (by omega)]
  | case3 b₀ =>
    have h₀ := b₀.toNat_lt
    have hzero : 0 < 256 := by omega
    have ht := byteTriple_eq hzero hzero b₀.toNat
    rw [groups]
    generalize byteTriple b₀.toNat 0 0 = t at ht ⊢
    have hback := triple_groups (t := t) (by omega)
    have hlast : t % 64 = 0 := by omega
    have hthird : t >>> 6 % 64 = 0 := by
      rw [Nat.shiftRight_eq_div_pow]
      omega
    rw [hlast, hthird] at hback
    simp only [List.map_cons, List.map_nil]
    rw [decodeChunks, hback, Nat.shiftRight_eq_div_pow, ofNat_eq (b := b₀) (by omega)]
  | case4 => rfl

theorem fromUtf8_encode (s : List Char) : fromUtf8 (Utf8.encode s) = some s := by
  unfold fromUtf8
  rw [Utf8.decodeLossy_encode]
  exact if_pos rfl

theorem base64Decode_base64Encode (s : List Char) : base64Decode (base64Encode s) = some s := by
  obtain ⟨k, hk⟩ := encodeChunks_eq (Utf8.encode s)
  have hpad : '=' ∉ (groups (Utf8.encode s)).map charOf := by
    intro hmem
    obtain ⟨n, -, hn⟩ := List.mem_map.mp hmem
    exact (charOf_spec n).1 hn
  unfold base64Decode base64Encode
  rw [hk, trimEndMatches_replicate hpad, map_charValue_encode, decodeChunks_groups]
  exact fromUtf8_encode s

/-- A cursor that the library writes and reads back is decoded to what was encoded. -/
theorem decodeCursor_encodeCursor {toString : CursorData → Option (List Char)}
    {fromStr : List Char → Option CursorData} {c : CursorData} {json : List Char}
    (hwrite : toString c = some json) (hread : fromStr json = some c) :
    decodeCursor fromStr (encodeCursor toString c.pkValue c.orderCol c.orderVal) = .ok c := by
  unfold decodeCursor encodeCursor
  rw [hwrite, Option.getD_some, base64Decode_base64Encode]
  dsimp only
  rw [hread]

end Pagination

end ForgeIndex
