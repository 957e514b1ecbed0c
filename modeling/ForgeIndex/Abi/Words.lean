import Mathlib.Data.Nat.Bitwise
import ForgeIndex.Abi.Encoding

/-!
# Reading one word

What the decoder makes of a word of the data or of a topic that holds an encoded value.
-/

namespace ForgeIndex

open HeadTail (word)

variable {data : Bytes} {o n : ℕ}

theorem readSlot_of_at (hlen : data.length < 2 ^ 63) {slot : Bytes} (hslot : slot.length = 32)
    (h : At data o slot) : readSlot data o = .ok slot := by
  have hle := h.le
  have hread := h.take_drop
  rw [hslot] at hle hread
  rw [readSlot, add_of_lt (by omega), ok_bind, if_neg (by omega),
    slice_of_le ⟨by omega, hle⟩, Nat.add_sub_cancel_left, hread]

theorem u256ToUsize_word (hn : n < 2 ^ 64) : u256ToUsize (word n) = .ok n := by
  have hn : n < 256 ^ 8 := hn
  have hzeros : (word n).take 24 = List.replicate 24 0 := BigEndian.take_bytes_of_lt 24 hn
  have hlow : (word n).drop 24 = BigEndian.bytes 8 n := BigEndian.drop_bytes 24 8 n
  unfold u256ToUsize
  rw [hzeros, hlow, if_neg (by decide), BigEndian.value_bytes_of_lt hn]

theorem readOffset_of_at (hlen : data.length < 2 ^ 63) (hn : n < 2 ^ 64) (h : At data o (word n)) :
    readOffset data o = .ok n := by
  rw [readOffset, readSlot_of_at hlen (HeadTail.length_word n) h, ok_bind, u256ToUsize_word hn]

theorem value_drop_word (n : ℕ) : BigEndian.value ((word n).drop 16) = n % 2 ^ 128 := by
  have hlow : (word n).drop 16 = BigEndian.bytes 16 n := BigEndian.drop_bytes 16 16 n
  rw [hlow, BigEndian.value_bytes]
  rfl

theorem decodeUint_word {bits : ℕ} (hbits : bits ≤ 256) (hn : n < 2 ^ bits) :
    decodeUint (word n) bits = if bits ≤ 128 then .uint n else .uint256 (toString n) := by
  unfold decodeUint
  split_ifs with hsmall
  · have hlt : n < 2 ^ 128 := lt_of_lt_of_le hn (Nat.pow_le_pow_right (by decide) hsmall)
    rw [value_drop_word, Nat.mod_eq_of_lt hlt]
  · have hlt : n < 256 ^ 32 := lt_of_lt_of_le hn (Nat.pow_le_pow_right (by decide) hbits)
    rw [word, BigEndian.value_bytes_of_lt hlt]

theorem and_shift_ne_zero_iff {k : ℕ} (hk : k < 128) (x : BitVec 128) :
    x &&& (1 <<< k) ≠ 0 ↔ x.toNat.testBit k = true := by
  have hand : x &&& (1 <<< k) = if x.getLsbD k = true then BitVec.twoPow 128 k else 0#128 :=
    BitVec.and_twoPow x k
  rw [hand]
  show _ ↔ x.getLsbD k = true
  split_ifs with hbit
  · refine ⟨fun _ => hbit, fun _ hzero => ?_⟩
    have hself : (BitVec.twoPow 128 k).getLsbD k = true := by simp [hk]
    rw [hzero] at hself
    cases k <;> simp at hself
  · exact ⟨fun h => (h rfl).elim, fun h => (hbit h).elim⟩

theorem testBit_of_neg {k j m : ℕ} (hm : m < 2 ^ k) (hkj : k ≤ j) (hj : j < 128) :
    (2 ^ 128 - (m + 1)).testBit j = true := by
  have hpow : 2 ^ k ≤ 2 ^ j := Nat.pow_le_pow_right (by decide) hkj
  have hpow' : 2 ^ j ≤ 2 ^ 128 := Nat.pow_le_pow_right (by decide) (by omega)
  rw [Nat.testBit_two_pow_sub_succ (by omega), Nat.testBit_lt_two_pow (by omega)]
  simp [hj]

theorem or_mask_of_neg {k m : ℕ} (hm : m < 2 ^ k) :
    BitVec.ofNat 128 (2 ^ 128 - (m + 1)) ||| (BitVec.allOnes 128 <<< k) =
      BitVec.ofNat 128 (2 ^ 128 - (m + 1)) := by
  apply BitVec.eq_of_getLsbD_eq
  intro j hj
  rw [BitVec.getLsbD_or, BitVec.getLsbD_shiftLeft, BitVec.getLsbD_ofNat]
  by_cases hkj : k ≤ j
  · rw [testBit_of_neg hm hkj hj]
    simp [hj]
  · simp [Nat.lt_of_not_le hkj]

theorem and_0x80_ne_zero_iff (b : UInt8) : b &&& 0x80 ≠ 0 ↔ 128 ≤ b.toNat := by
  have hb := b.toNat_lt
  have hand : (b &&& 0x80).toNat = (b.toNat.testBit 7).toNat * 2 ^ 7 := by
    rw [UInt8.toNat_and]
    exact Nat.and_two_pow b.toNat 7
  rw [ne_eq, ← UInt8.toNat_inj, hand, Nat.testBit_eq_decide_div_mod_eq]
  simp
  omega

theorem headD_word (n : ℕ) : ((word n).headD 0).toNat = n / 256 ^ 31 % 256 := by
  show (UInt8.ofNat (n / 256 ^ 31)).toNat = _
  exact UInt8.toNat_ofNat'

theorem lt_of_ofNat_lt {k n : ℕ} (h : Int.ofNat n < 2 ^ k) : n < 2 ^ k := by
  have hcast : (n : ℤ) < ((2 ^ k : ℕ) : ℤ) := by
    push_cast
    exact h
  exact Int.ofNat_lt.mp hcast

theorem lt_of_le_negSucc {k m : ℕ} (h : -2 ^ k ≤ Int.negSucc m) : m < 2 ^ k := by
  have hneg : Int.negSucc m = -((m : ℤ) + 1) := Int.negSucc_eq m
  have hcast : ((m + 1 : ℕ) : ℤ) ≤ ((2 ^ k : ℕ) : ℤ) := by
    push_cast
    omega
  omega

theorem low_negSucc {m : ℕ} (hm : m < 2 ^ 128) :
    (Int.negSucc m % 2 ^ 256).toNat % 2 ^ 128 = 2 ^ 128 - (m + 1) := by
  have hneg : Int.negSucc m = -((m : ℤ) + 1) := Int.negSucc_eq m
  omega

theorem decodeInt_small {bits : ℕ} (h0 : 0 < bits) (hbits : bits ≤ 128) {i : ℤ}
    (hlo : -2 ^ (bits - 1) ≤ i) (hhi : i < 2 ^ (bits - 1)) (h128 : bits = 128 → 0 ≤ i) :
    decodeInt (word (i % 2 ^ 256).toNat) bits = .ok (.int i) := by
  have hpow : 2 ^ (bits - 1) ≤ 2 ^ 127 := Nat.pow_le_pow_right (by decide) (by omega)
  have hshift : bits - 1 < 128 := by omega
  unfold decodeInt sub
  rw [if_pos hbits, if_pos (by omega), value_drop_word]
  show (if BitVec.ofNat 128 _ &&& (1 <<< (bits - 1)) ≠ 0 then _ else _) = _
  cases i with
  | ofNat n =>
    have hn := lt_of_ofNat_lt hhi
    have hlow : (Int.ofNat n % 2 ^ 256).toNat % 2 ^ 128 = n := by
      have hcast : Int.ofNat n = (n : ℤ) := rfl
      omega
    have hnat : (BitVec.ofNat 128 n).toNat = n := by
      rw [BitVec.toNat_ofNat, Nat.mod_eq_of_lt (by omega)]
    have hclear : ¬(BitVec.ofNat 128 n).toNat.testBit (bits - 1) = true := by
      rw [hnat, Nat.testBit_lt_two_pow hn]
      simp
    rw [hlow, if_neg (mt (and_shift_ne_zero_iff hshift _).mp hclear), BitVec.toInt_eq_toNat_cond,
      hnat, if_pos (by omega)]
    rfl
  | negSucc m =>
    have hm := lt_of_le_negSucc hlo
    have hlt : bits < 128 := by
      by_contra hge
      exact absurd (h128 (by omega)) (by omega)
    have hmask : 2 ^ (bits - 1) ≤ 2 ^ bits := Nat.pow_le_pow_right (by decide) (by omega)
    have hnat : (BitVec.ofNat 128 (2 ^ 128 - (m + 1))).toNat = 2 ^ 128 - (m + 1) := by
      rw [BitVec.toNat_ofNat, Nat.mod_eq_of_lt (by omega)]
    have hset : (BitVec.ofNat 128 (2 ^ 128 - (m + 1))).toNat.testBit (bits - 1) = true := by
      rw [hnat]
      exact testBit_of_neg hm (le_refl _) hshift
    rw [low_negSucc (by omega), if_pos ((and_shift_ne_zero_iff hshift _).mpr hset), if_pos hlt,
      or_mask_of_neg (by omega), BitVec.toInt_eq_toNat_cond, hnat, if_neg (by omega)]
    have hint : ((2 ^ 128 - (m + 1) : ℕ) : ℤ) - ((2 ^ 128 : ℕ) : ℤ) = Int.negSucc m := by
      have hneg : Int.negSucc m = -((m : ℤ) + 1) := Int.negSucc_eq m
      omega
    rw [hint]

theorem decodeInt_large {bits : ℕ} (hbits : 128 < bits) (hwide : bits ≤ 256) {i : ℤ}
    (hlo : -2 ^ (bits - 1) ≤ i) (hhi : i < 2 ^ (bits - 1)) :
    decodeInt (word (i % 2 ^ 256).toNat) bits = .ok (.int256 (toString i)) := by
  have hpow : 2 ^ (bits - 1) ≤ 2 ^ 255 := Nat.pow_le_pow_right (by decide) (by omega)
  unfold decodeInt
  rw [if_neg (by omega)]
  dsimp only
  cases i with
  | ofNat n =>
    have hn := lt_of_ofNat_lt hhi
    have hword : (Int.ofNat n % 2 ^ 256).toNat = n := by
      have hcast : Int.ofNat n = (n : ℤ) := rfl
      omega
    rw [hword, if_neg, word, BigEndian.value_bytes_of_lt (by omega)]
    · rfl
    · rw [and_0x80_ne_zero_iff, headD_word]
      omega
  | negSucc m =>
    have hm := lt_of_le_negSucc hlo
    have hword : (Int.negSucc m % 2 ^ 256).toNat = 2 ^ 256 - (m + 1) := by
      have hneg : Int.negSucc m = -((m : ℤ) + 1) := Int.negSucc_eq m
      omega
    have hback : 2 ^ 256 - (2 ^ 256 - (m + 1)) = m + 1 := by omega
    rw [hword, if_pos, word, BigEndian.value_bytes_of_lt (by omega), hback]
    · rfl
    · rw [and_0x80_ne_zero_iff, headD_word]
      omega

theorem decodeInt_word {bits : ℕ} (hw : Width bits) {i : ℤ} (hlo : -2 ^ (bits - 1) ≤ i)
    (hhi : i < 2 ^ (bits - 1)) (h128 : bits = 128 → 0 ≤ i) :
    decodeInt (word (i % 2 ^ 256).toNat) bits = .ok (decoded (.int bits) (.int i)) := by
  obtain ⟨h8, h256, -⟩ := hw
  rw [decoded]
  split_ifs with hsmall
  · exact decodeInt_small (by omega) hsmall hlo hhi h128
  · exact decodeInt_large (by omega) h256 hlo hhi

/-- A negative integer of 128 bits asks for a shift by the whole width of the word. -/
theorem decodeInt_shift {bits : ℕ} (hbits : bits = 128) {i : ℤ} (hlo : -2 ^ (bits - 1) ≤ i)
    (hneg : i < 0) : decodeInt (word (i % 2 ^ 256).toNat) bits = .error (.fault .shift) := by
  obtain ⟨m, rfl⟩ : ∃ m, i = Int.negSucc m := Int.eq_negSucc_of_lt_zero hneg
  have hm := lt_of_le_negSucc hlo
  have hpow : 2 ^ (bits - 1) ≤ 2 ^ 127 := Nat.pow_le_pow_right (by decide) (by omega)
  have hshift : bits - 1 < 128 := by omega
  have hnat : (BitVec.ofNat 128 (2 ^ 128 - (m + 1))).toNat = 2 ^ 128 - (m + 1) := by
    rw [BitVec.toNat_ofNat, Nat.mod_eq_of_lt (by omega)]
  have hset : (BitVec.ofNat 128 (2 ^ 128 - (m + 1))).toNat.testBit (bits - 1) = true := by
    rw [hnat]
    exact testBit_of_neg hm (le_refl _) hshift
  have hwide : m < 2 ^ 128 := by omega
  unfold decodeInt sub
  rw [if_pos (by omega), if_pos (by omega), value_drop_word, low_negSucc hwide, ok_bind,
    if_pos ((and_shift_ne_zero_iff hshift _).mpr hset), if_neg (by omega)]

/-- The word of an integer of any width is read back, except for the negative ones of 128 bits. -/
theorem decodeInt_signed_iff {bits : ℕ} (hw : Width bits) {v : ℤ} (hlo : -2 ^ (bits - 1) ≤ v)
    (hhi : v < 2 ^ (bits - 1)) :
    decodeInt (word (v % 2 ^ 256).toNat) bits =
        .ok (if bits ≤ 128 then .int v else .int256 (toString v)) ↔
      (bits = 128 → 0 ≤ v) := by
  constructor
  · intro h hbits
    by_contra hneg
    rw [decodeInt_shift hbits hlo (by omega)] at h
    cases h
  · intro h128
    rw [decodeInt_word hw hlo hhi h128, decoded]

/-- The least integer of 8 bits. -/
theorem decodeInt_signed_iff_least :
    decodeInt (word ((-128 : ℤ) % 2 ^ 256).toNat) 8 = .ok (.int (-128)) :=
  (decodeInt_signed_iff (v := -128) ⟨by decide, by decide, by decide⟩ (by decide)
    (by decide)).mpr (by decide)

/-- The integer -2 of 128 bits is not read. -/
theorem decodeInt_not_signed :
    (Width 128 ∧ (-2 ^ (128 - 1) : ℤ) ≤ -2 ∧ (-2 : ℤ) < 2 ^ (128 - 1)) ∧
      decodeInt (word ((-2 : ℤ) % 2 ^ 256).toNat) 128 ≠ .ok (.int (-2)) := by
  refine ⟨⟨⟨by decide, by decide, by decide⟩, by omega, by omega⟩, fun h => ?_⟩
  rw [decodeInt_shift rfl (by omega) (by omega)] at h
  cases h

/-- The types whose values are one word. -/
def AbiType.isWord : AbiType → Bool
  | .uint _ => true
  | .int _ => true
  | .address => true
  | .bool => true
  | .fixedBytes _ => true
  | _ => false

theorem addressOfSlot_append (a : Address) : addressOfSlot (List.replicate 12 0 ++ a.bytes) = a := by
  have hdrop : (List.replicate 12 0 ++ a.bytes).drop 12 = a.bytes := by
    exact List.drop_left' (List.length_replicate)
  have hsize := a.size
  unfold addressOfSlot
  rw [dif_pos (by rw [hdrop, hsize])]
  obtain ⟨bs, hbs⟩ := a
  congr

theorem decodeIndexedParam_encode {t : AbiType} {v : AbiValue} {topic : Hash32}
    (ht : t.isWord = true) (hv : HasType t v) (hneg : t = .int 128 → ∀ i, v = .int i → 0 ≤ i)
    (htopic : topic.bytes = encode t v) : decodeIndexedParam t topic = .ok (decoded t v) := by
  cases t with
  | uint bits =>
    obtain ⟨⟨-, h256, -⟩, n, rfl, hn⟩ := hv
    rw [decodeIndexedParam, htopic, encode, decodeUint_word h256 hn, decoded]
  | int bits =>
    obtain ⟨hw, i, rfl, hlo, hhi⟩ := hv
    rw [decodeIndexedParam, htopic, encode]
    apply decodeInt_word hw hlo hhi
    rintro rfl
    exact hneg rfl i rfl
  | address =>
    obtain ⟨a, rfl⟩ := hv
    rw [decodeIndexedParam, htopic, encode, addressOfSlot_append, decoded]
  | bool =>
    obtain ⟨b, rfl⟩ := hv
    rw [decodeIndexedParam, htopic, encode, decoded]
    cases b <;> rfl
  | fixedBytes n =>
    obtain ⟨⟨h1, h32⟩, b, rfl, rfl⟩ := hv
    rw [decodeIndexedParam, htopic, encode, Nat.min_eq_left h32, List.take_left, decoded]
  | _ => cases ht

theorem decodeParam_of_slot {a : Allocator} {t : AbiType} {topic : Hash32} {abs : Bool} (ht : t.isWord = true)
    (h : readSlot data o = .ok topic.bytes) :
    decodeParam a abs data t o = (do
      let value ← decodeIndexedParam t topic
      .ok (value, 32)) := by
  cases t with
  | uint bits => rw [decodeParam, h]; rfl
  | int bits => rw [decodeParam, h]; rfl
  | address => rw [decodeParam, h]; rfl
  | bool => rw [decodeParam, h]; rfl
  | fixedBytes n => rw [decodeParam, h]; rfl
  | _ => cases ht

end ForgeIndex
