import ForgeIndex.Lib.Outcome
import ForgeIndex.Abi.Events
import ForgeIndex.Abi.Parser

/-!
# Hostile logs

Exactly when the decoder comes to a fault.  The conditions speak of the words of the data, at the
places to which a type leads: `Reads` says that a value can be read at a place, `Safe` that no step
on the way there overflows, slices out of bounds, shifts too far or asks for too much room.
-/

namespace ForgeIndex

open Outcome (Judged)

def Stop.Faulty : Stop → Prop
  | .fault _ => True
  | .err _ => False

/-- The judgement of a decoding step. -/
abbrev Judges {α : Type} (x : Decode α) (safe good : Prop) (post : α → Prop) : Prop :=
  Judged Stop.Faulty x safe good post

section Steps

variable {a : Allocator} {data : Bytes}

theorem judges_add (a b : ℕ) : Judges (add a b) (a + b < 2 ^ 64) True fun n => n = a + b :=
  Judged.check trivial

theorem judges_withCapacity (a : Allocator) (n : ℕ) :
    Judges (withCapacity a n) (a.grants n = true) True fun _ => True :=
  Judged.conseq (Judged.check trivial) Iff.rfl (fun _ => Iff.rfl) fun _ _ => trivial

/-- The word at `o`. -/
def slotAt (data : Bytes) (o : ℕ) : Bytes := (data.drop o).take 32

def wordAt (data : Bytes) (o : ℕ) : ℕ := BigEndian.value (slotAt data o)

/-- A number of 64 bits can be read at `o`. -/
def NumberAt (data : Bytes) (o : ℕ) : Prop := o + 32 ≤ data.length ∧ wordAt data o < 2 ^ 64

theorem length_slotAt {o : ℕ} (h : o + 32 ≤ data.length) : (slotAt data o).length = 32 := by
  rw [slotAt, List.length_take, List.length_drop]
  omega

theorem judges_readSlot (data : Bytes) (o : ℕ) :
    Judges (readSlot data o) (o + 32 < 2 ^ 64) (o + 32 ≤ data.length) fun slot =>
      slot = slotAt data o ∧ slot.length = 32 := by
  have hnext : o + 32 < 2 ^ 64 → ∀ last, last = o + 32 → Judges (if last > data.length then
      mismatch ("data too short: need " ++ toString 32 ++ " bytes at offset " ++ toString o ++
        ", have " ++ toString data.length) else slice data o last) True (o + 32 ≤ data.length)
      fun slot => slot = slotAt data o ∧ slot.length = 32 := by
    rintro - last rfl
    by_cases hle : o + 32 ≤ data.length
    · rw [if_neg (by omega), slice_of_le ⟨by omega, hle⟩, Nat.add_sub_cancel_left]
      exact ⟨trivial, hle, rfl, length_slotAt hle⟩
    · rw [if_pos (by omega)]
      exact Judged.answer id trivial hle
  exact (Judged.seq (judges_add o 32) hnext).conseq (and_true _).symm.to_iff (fun _ => Iff.rfl)
    fun _ h => h

theorem judges_u256ToUsize {slot : Bytes} (h : slot.length = 32) :
    Judges (u256ToUsize slot) True (BigEndian.value slot < 2 ^ 64) fun n =>
      n = BigEndian.value slot := by
  have hsplit : BigEndian.value slot =
      BigEndian.value (slot.take 24) * 2 ^ 64 + BigEndian.value (slot.drop 24) := by
    have happend := BigEndian.value_append (slot.take 24) (slot.drop 24)
    rw [List.take_append_drop, List.length_drop, h] at happend
    exact happend
  have hlow : BigEndian.value (slot.drop 24) < 2 ^ 64 := by
    have hlt := BigEndian.value_lt (slot.drop 24)
    rw [List.length_drop, h] at hlt
    exact hlt
  have hany : ((slot.take 24).any fun b => b ≠ 0) = true ↔ BigEndian.value (slot.take 24) ≠ 0 := by
    rw [ne_eq, BigEndian.value_eq_zero_iff]
    simp
  unfold u256ToUsize
  by_cases hbig : BigEndian.value (slot.take 24) = 0
  · rw [if_neg (by rw [hany]; simp [hbig])]
    rw [hbig, Nat.zero_mul, Nat.zero_add] at hsplit
    exact ⟨trivial, by rw [hsplit]; exact hlow, hsplit.symm⟩
  · rw [if_pos (hany.mpr hbig)]
    refine Judged.answer id trivial (Nat.not_lt.mpr ?_)
    calc 2 ^ 64 ≤ BigEndian.value (slot.take 24) * 2 ^ 64 := Nat.le_mul_of_pos_left _ (by omega)
      _ ≤ BigEndian.value slot := by omega

theorem judges_readOffset (data : Bytes) (o : ℕ) :
    Judges (readOffset data o) (o + 32 < 2 ^ 64) (NumberAt data o) fun n => n = wordAt data o := by
  have hnext : o + 32 < 2 ^ 64 → o + 32 ≤ data.length →
      ∀ slot, slot = slotAt data o ∧ slot.length = 32 →
      Judges (u256ToUsize slot) True (wordAt data o < 2 ^ 64) fun n => n = wordAt data o := by
    rintro - - slot ⟨rfl, hlen⟩
    exact judges_u256ToUsize hlen
  exact (Judged.bind (judges_readSlot data o) hnext).conseq (by simp) (fun _ => Iff.rfl) fun _ h => h

/-- The integer types that a word can have without a shift by the width of the accumulator. -/
def IntSafe (slot : Bytes) (bits : ℕ) : Prop :=
  bits ≠ 0 ∧ (bits = 128 → BigEndian.value (slot.drop 16) < 2 ^ 127)

theorem judges_decodeInt {slot : Bytes} (h : slot.length = 32) (bits : ℕ) :
    Judges (decodeInt slot bits) (IntSafe slot bits) True fun _ => True := by
  have hlow : BigEndian.value (slot.drop 16) < 2 ^ 128 := by
    have hlt := BigEndian.value_lt (slot.drop 16)
    rw [List.length_drop, h] at hlt
    exact hlt
  have hraw : (BitVec.ofNat 128 (BigEndian.value (slot.drop 16))).toNat =
      BigEndian.value (slot.drop 16) := by
    rw [BitVec.toNat_ofNat, Nat.mod_eq_of_lt hlow]
  unfold decodeInt IntSafe
  by_cases hsmall : bits ≤ 128
  · rw [if_pos hsmall]
    by_cases hzero : bits = 0
    · subst hzero
      exact Or.inl ⟨trivial, fun h => h.1 rfl⟩
    · dsimp only
      rw [sub_of_le (by omega), ok_bind]
      by_cases hset : (BigEndian.value (slot.drop 16)).testBit (bits - 1) = true
      · rw [if_pos ((and_shift_ne_zero_iff (by omega) _).mpr (by rw [hraw]; exact hset))]
        by_cases hlt : bits < 128
        · rw [if_pos hlt]
          exact ⟨⟨hzero, by omega⟩, trivial, trivial⟩
        · have hbits : bits = 128 := by omega
          subst hbits
          have hge : 2 ^ 127 ≤ BigEndian.value (slot.drop 16) := Nat.ge_two_pow_of_testBit hset
          rw [if_neg hlt]
          exact Or.inl ⟨trivial, fun hs => by have := hs.2 rfl; omega⟩
      · rw [if_neg (mt (and_shift_ne_zero_iff (by omega) _).mp (by rw [hraw]; exact hset))]
        refine ⟨⟨hzero, ?_⟩, trivial, trivial⟩
        rintro rfl
        by_contra hge
        apply hset
        rw [Nat.testBit_eq_decide_div_mod_eq, decide_eq_true_iff]
        omega
  · rw [if_neg hsmall]
    have hsafe : bits ≠ 0 ∧ (bits = 128 → BigEndian.value (slot.drop 16) < 2 ^ 127) :=
      ⟨by omega, by omega⟩
    dsimp only
    split_ifs
    · exact ⟨hsafe, trivial, trivial⟩
    · exact ⟨hsafe, trivial, trivial⟩

theorem decodeBytesAt_eq (data : Bytes) (s : ℕ) :
    decodeBytesAt data s = (do
      let len ← readOffset data s
      let start ← add s 32
      let last ← add start len
      let value ← slice data start (min last data.length)
      let padded ← paddedLen len
      let size ← add 32 padded
      .ok (value, size)) := by
  rw [decodeBytesAt, readOffset, bind_assoc]

/-- Bytes at `s` whose end, and whose size in whole words, are machine numbers. -/
def BytesSafe (data : Bytes) (s : ℕ) : Prop :=
  s + 32 < 2 ^ 64 ∧ (NumberAt data s →
    s + 32 + wordAt data s < 2 ^ 64 ∧ 32 + (wordAt data s + 31) / 32 * 32 < 2 ^ 64)

theorem judges_decodeBytesAt (data : Bytes) (s : ℕ) :
    Judges (decodeBytesAt data s) (BytesSafe data s) (NumberAt data s) fun _ => True := by
  rw [decodeBytesAt_eq]
  refine (Judged.bind (judges_readOffset data s) ?_).conseq Iff.rfl (fun _ => (and_true _).symm.to_iff)
    fun _ h => h
  rintro hs ⟨hle, -⟩ len rfl
  rw [add_of_lt hs, ok_bind]
  by_cases hend : s + 32 + wordAt data s < 2 ^ 64
  · rw [add_of_lt hend, ok_bind, slice_of_le ⟨by omega, by omega⟩, ok_bind, paddedLen,
      mul_of_lt (by omega), ok_bind]
    by_cases hsize : 32 + (wordAt data s + 31) / 32 * 32 < 2 ^ 64
    · rw [add_of_lt hsize, ok_bind]
      exact ⟨⟨hend, hsize⟩, trivial, trivial⟩
    · rw [add, if_neg hsize, error_bind]
      exact Or.inl ⟨trivial, fun h => hsize h.2⟩
  · rw [add, if_neg hend, error_bind]
    exact Or.inl ⟨trivial, fun h => hend h.1⟩

/-- All of `n` elements that follow each other at distance `c` can be read. -/
def ItemsRead (reads : ℕ → Prop) (c n p : ℕ) : Prop := ∀ i < n, reads (p + i * c)

/-- Each element that is come to, those before it being read, is safe, and so is the step over
it. -/
def ItemsSafe (safe reads : ℕ → Prop) (c n p : ℕ) : Prop :=
  ∀ i < n, ItemsRead reads c i p →
    safe (p + i * c) ∧ (reads (p + i * c) → p + (i + 1) * c < 2 ^ 64)

theorem itemsRead_succ {reads : ℕ → Prop} {c n p : ℕ} :
    ItemsRead reads c (n + 1) p ↔ reads p ∧ ItemsRead reads c n (p + c) := by
  have hshift (i : ℕ) : p + (i + 1) * c = p + c + i * c := by ring
  simp only [ItemsRead, Nat.forall_lt_succ_left, Nat.zero_mul, Nat.add_zero, hshift]

theorem itemsSafe_succ {safe reads : ℕ → Prop} {c n p : ℕ} :
    ItemsSafe safe reads c (n + 1) p ↔
      safe p ∧ (reads p → p + c < 2 ^ 64 ∧ ItemsSafe safe reads c n (p + c)) := by
  have hshift (i : ℕ) : p + (i + 1) * c = p + c + i * c := by ring
  have hnone : ItemsRead reads c 0 p := fun i hi => absurd hi (Nat.not_lt_zero i)
  unfold ItemsSafe
  rw [Nat.forall_lt_succ_left]
  simp only [itemsRead_succ, hshift, Nat.zero_mul, Nat.add_zero, hnone, true_imp_iff]
  constructor
  · rintro ⟨⟨hsafe, hstep⟩, hrest⟩
    exact ⟨hsafe, fun hread => ⟨hstep hread, fun i hi hbefore => hrest i hi ⟨hread, hbefore⟩⟩⟩
  · rintro ⟨hsafe, hnext⟩
    exact ⟨⟨hsafe, fun hread => (hnext hread).1⟩,
      fun i hi hbefore => (hnext hbefore.1).2 i hi hbefore.2⟩

theorem judges_decodeItems {item : ℕ → Decode (DecodedParam × ℕ)} {safe reads : ℕ → Prop} {c : ℕ}
    (hitem : ∀ p, Judges (item p) (safe p) (reads p) fun r => r.2 = c) (n p : ℕ) :
    Judges (decodeItems item n p) (ItemsSafe safe reads c n p) (ItemsRead reads c n p) fun r =>
      r.2 = p + n * c := by
  induction n generalizing p with
  | zero =>
    refine ⟨fun i hi => absurd hi (Nat.not_lt_zero i), fun i hi => absurd hi (Nat.not_lt_zero i), ?_⟩
    simp
  | succ n ih =>
    have hrest : safe p → reads p → ∀ r : DecodedParam × ℕ, r.2 = c → Judges (do
        let next ← add p r.2
        let items ← decodeItems item n next
        .ok (r.1 :: items.1, items.2)) (p + c < 2 ^ 64 ∧ ItemsSafe safe reads c n (p + c))
        (ItemsRead reads c n (p + c)) fun r' => r'.2 = p + (n + 1) * c := by
      rintro - - ⟨value, consumed⟩ hconsumed
      obtain rfl : consumed = c := hconsumed
      refine Judged.seq (judges_add p consumed) ?_
      rintro - next rfl
      refine Judged.andThen (ih (p + consumed)) ?_
      rintro - - ⟨values, last⟩ hlast
      obtain rfl : last = p + consumed + n * consumed := hlast
      refine ⟨trivial, trivial, ?_⟩
      show p + consumed + n * consumed = p + (n + 1) * consumed
      ring
    exact (Judged.bind (hitem p) hrest).conseq itemsSafe_succ (fun _ => itemsRead_succ) fun _ h => h

theorem decodeArrayAt_eq (a : Allocator) (item : ℕ → Decode (DecodedParam × ℕ)) (data : Bytes) (s : ℕ) :
    decodeArrayAt a item data s = (do
      let len ← readOffset data s
      withCapacity a len
      let pos ← add s 32
      let (items, last) ← decodeItems item len pos
      let size ← sub last s
      .ok (items, size)) := by
  rw [decodeArrayAt, readOffset, bind_assoc]

def ArrayReads (data : Bytes) (reads : ℕ → Prop) (c s : ℕ) : Prop :=
  NumberAt data s ∧ ItemsRead reads c (wordAt data s) (s + 32)

/-- An array at `s` that the process gets a vector for, with safe elements. -/
def ArraySafe (a : Allocator) (data : Bytes) (safe reads : ℕ → Prop) (c s : ℕ) : Prop :=
  s + 32 < 2 ^ 64 ∧ (NumberAt data s → a.grants (wordAt data s) = true ∧
    ItemsSafe safe reads c (wordAt data s) (s + 32))

theorem judges_itemsSize {item : ℕ → Decode (DecodedParam × ℕ)} {safe reads : ℕ → Prop} {c : ℕ}
    (hitem : ∀ p, Judges (item p) (safe p) (reads p) fun r => r.2 = c) {s p : ℕ} (n : ℕ)
    (hsp : s ≤ p) :
    Judges (do
      let (items, last) ← decodeItems item n p
      let size ← sub last s
      .ok (items, size)) (ItemsSafe safe reads c n p) (ItemsRead reads c n p) fun _ => True := by
  refine Judged.andThen (judges_decodeItems hitem n p) ?_
  rintro - - ⟨items, last⟩ hlast
  obtain rfl : last = p + n * c := hlast
  dsimp only
  rw [sub_of_le (by omega), ok_bind]
  exact ⟨trivial, trivial, trivial⟩

theorem judges_decodeArrayAt {item : ℕ → Decode (DecodedParam × ℕ)} {safe reads : ℕ → Prop} {c : ℕ}
    (hitem : ∀ p, Judges (item p) (safe p) (reads p) fun r => r.2 = c) (s : ℕ) :
    Judges (decodeArrayAt a item data s) (ArraySafe a data safe reads c s) (ArrayReads data reads c s)
      fun _ => True := by
  rw [decodeArrayAt_eq]
  refine Judged.bind (judges_readOffset data s) ?_
  rintro hs - len rfl
  refine Judged.seq (judges_withCapacity a (wordAt data s)) ?_
  rintro - - -
  rw [add_of_lt hs, ok_bind]
  exact judges_itemsSize hitem _ (by omega)

/-- A place, or the place to which an offset leads. -/
def StartReads (abs : Bool) (data : Bytes) (reads : ℕ → Prop) (o : ℕ) : Prop :=
  if abs then reads o else NumberAt data o ∧ reads (wordAt data o)

def StartSafe (abs : Bool) (data : Bytes) (safe : ℕ → Prop) (o : ℕ) : Prop :=
  if abs then safe o else o + 32 < 2 ^ 64 ∧ (NumberAt data o → safe (wordAt data o))

theorem judges_startOf {α : Type} {f : ℕ → Decode α} {safe reads : ℕ → Prop} {post : α → Prop}
    (hf : ∀ s, Judges (f s) (safe s) (reads s) post) (abs : Bool) (o : ℕ) :
    Judges (startOf abs data o >>= f) (StartSafe abs data safe o) (StartReads abs data reads o)
      post := by
  cases abs with
  | true => exact hf o
  | false =>
    refine Judged.bind (judges_readOffset data o) ?_
    rintro - - s rfl
    exact hf (wordAt data o)

end Steps

mutual

/-- A value of the type can be read at `o`, or, with `abs`, right there without an offset. -/
def Reads (data : Bytes) : Bool → AbiType → ℕ → Prop
  | _, .uint _, o => o + 32 ≤ data.length
  | _, .int _, o => o + 32 ≤ data.length
  | _, .address, o => o + 32 ≤ data.length
  | _, .bool, o => o + 32 ≤ data.length
  | _, .fixedBytes _, o => o + 32 ≤ data.length
  | abs, .bytes, o => StartReads abs data (NumberAt data) o
  | abs, .string, o => StartReads abs data (NumberAt data) o
  | abs, .array inner, o =>
    StartReads abs data (ArrayReads data (Reads data false inner) inner.consumed) o
  | _, .fixedArray inner len, o =>
    StartReads (!inner.isDynamic) data (ItemsRead (Reads data false inner) inner.consumed len) o
  | _, .tuple params, o =>
    StartReads (!AbiType.anyDynamic params) data (fun s => MembersRead data params s s) o

/-- The members of a tuple at `base`, from `pos` on. -/
def MembersRead (data : Bytes) : List AbiParam → ℕ → ℕ → Prop
  | [], _, _ => True
  | .mk _ t _ :: ps, base, pos =>
    (if t.isDynamic then NumberAt data pos ∧ Reads data true t (base + wordAt data pos)
      else Reads data false t pos) ∧ MembersRead data ps base (pos + t.consumed)

end

/-- The member of a tuple at `base` whose head is at `pos`. -/
def MemberReads (data : Bytes) (t : AbiType) (base pos : ℕ) : Prop :=
  if t.isDynamic then NumberAt data pos ∧ Reads data true t (base + wordAt data pos)
  else Reads data false t pos

mutual

/-- Reading a value of the type at `o` comes to no fault. -/
def Safe (a : Allocator) (data : Bytes) : Bool → AbiType → ℕ → Prop
  | _, .uint _, o => o + 32 < 2 ^ 64
  | _, .int bits, o => o + 32 < 2 ^ 64 ∧ (o + 32 ≤ data.length → IntSafe (slotAt data o) bits)
  | _, .address, o => o + 32 < 2 ^ 64
  | _, .bool, o => o + 32 < 2 ^ 64
  | _, .fixedBytes _, o => o + 32 < 2 ^ 64
  | abs, .bytes, o => StartSafe abs data (BytesSafe data) o
  | abs, .string, o => StartSafe abs data (BytesSafe data) o
  | abs, .array inner, o =>
    StartSafe abs data
      (ArraySafe a data (Safe a data false inner) (Reads data false inner) inner.consumed) o
  | _, .fixedArray inner len, o =>
    StartSafe (!inner.isDynamic) data (fun s => a.grants len = true ∧
      ItemsSafe (Safe a data false inner) (Reads data false inner) inner.consumed len s) o
  | _, .tuple params, o =>
    StartSafe (!AbiType.anyDynamic params) data (fun s => a.grants params.length = true ∧
      MembersSafe a data params s s) o

def MembersSafe (a : Allocator) (data : Bytes) : List AbiParam → ℕ → ℕ → Prop
  | [], _, _ => True
  | .mk _ t _ :: ps, base, pos =>
    (if t.isDynamic then pos + 32 < 2 ^ 64 ∧ (NumberAt data pos →
        base + wordAt data pos < 2 ^ 64 ∧ Safe a data true t (base + wordAt data pos))
      else Safe a data false t pos) ∧
    (MemberReads data t base pos →
      pos + t.consumed < 2 ^ 64 ∧ MembersSafe a data ps base (pos + t.consumed))

end

section Types

variable {a : Allocator} {data : Bytes}

theorem judges_word (o : ℕ) {f : Bytes → DecodedParam} :
    Judges (do
      let slot ← readSlot data o
      .ok (f slot, 32)) (o + 32 < 2 ^ 64) (o + 32 ≤ data.length) fun r => r.2 = 32 := by
  refine Judged.andThen (judges_readSlot data o) ?_
  rintro - - slot -
  exact ⟨trivial, trivial, rfl⟩

mutual

theorem judges_decodeParam : ∀ (t : AbiType) (abs : Bool) (o : ℕ),
    Judges (decodeParam a abs data t o) (Safe a data abs t o) (Reads data abs t o) fun r =>
      abs = false → r.2 = t.consumed
  | .uint bits, abs, o => by
    rw [decodeParam]
    exact (judges_word o).conseq Iff.rfl (fun _ => Iff.rfl) fun _ h _ => h
  | .int bits, abs, o => by
    rw [decodeParam]
    refine (Judged.bind (judges_readSlot data o) ?_).conseq Iff.rfl
      (fun _ => (and_true _).symm.to_iff) fun _ h => h
    rintro - - slot ⟨rfl, hslot⟩
    refine Judged.andThen (judges_decodeInt hslot bits) ?_
    rintro - - value -
    exact ⟨trivial, trivial, fun _ => rfl⟩
  | .address, abs, o => by
    rw [decodeParam]
    exact (judges_word o).conseq Iff.rfl (fun _ => Iff.rfl) fun _ h _ => h
  | .bool, abs, o => by
    rw [decodeParam]
    exact (judges_word o).conseq Iff.rfl (fun _ => Iff.rfl) fun _ h _ => h
  | .fixedBytes n, abs, o => by
    rw [decodeParam]
    exact (judges_word o).conseq Iff.rfl (fun _ => Iff.rfl) fun _ h _ => h
  | .bytes, abs, o => by
    rw [decodeParam]
    refine judges_startOf (fun s => ?_) abs o
    refine Judged.andThen (judges_decodeBytesAt data s) ?_
    rintro - - ⟨value, size⟩ -
    refine ⟨trivial, trivial, ?_⟩
    rintro rfl
    rfl
  | .string, abs, o => by
    rw [decodeParam]
    refine judges_startOf (fun s => ?_) abs o
    refine Judged.andThen (judges_decodeBytesAt data s) ?_
    rintro - - ⟨value, size⟩ -
    refine ⟨trivial, trivial, ?_⟩
    rintro rfl
    rfl
  | .array inner, abs, o => by
    have hitem (p : ℕ) := (judges_decodeParam inner false p).conseq Iff.rfl
      (fun _ => Iff.rfl) fun _ h => h rfl
    rw [decodeParam]
    refine judges_startOf (fun s => ?_) abs o
    refine Judged.andThen (judges_decodeArrayAt hitem s) ?_
    rintro - - ⟨items, size⟩ -
    refine ⟨trivial, trivial, ?_⟩
    rintro rfl
    rfl
  | .fixedArray inner len, abs, o => by
    have hitem (p : ℕ) := (judges_decodeParam inner false p).conseq Iff.rfl
      (fun _ => Iff.rfl) fun _ h => h rfl
    -- dynamic elements are behind an offset, static ones in place
    rw [decodeParam, Safe, Reads, AbiType.consumed]
    cases hdyn : inner.isDynamic with
    | true =>
      rw [if_pos rfl]
      refine judges_startOf (fun s => ?_) false o
      refine Judged.seq (judges_withCapacity a len) ?_
      rintro - - -
      refine Judged.andThen (judges_decodeItems hitem len s) ?_
      rintro - - ⟨items, last⟩ hlast
      obtain rfl : last = s + len * inner.consumed := hlast
      dsimp only
      rw [sub_of_le (by omega), ok_bind]
      exact ⟨trivial, trivial, fun _ => rfl⟩
    | false =>
      rw [if_neg (by simp)]
      refine Judged.seq (judges_withCapacity a len) ?_
      rintro hgrant - -
      have hroom := a.bounded len hgrant
      refine Judged.andThen (judges_decodeItems hitem len o) ?_
      rintro - - ⟨items, last⟩ -
      dsimp only
      rw [mul_of_lt (by omega), ok_bind]
      exact ⟨trivial, trivial, fun _ => rfl⟩
  | .tuple params, abs, o => by
    rw [decodeParam, Safe, Reads, AbiType.consumed]
    cases hdyn : AbiType.anyDynamic params with
    | true =>
      rw [if_pos rfl]
      refine judges_startOf (fun s => ?_) false o
      refine Judged.seq (judges_withCapacity a params.length) ?_
      rintro - - -
      refine Judged.andThen (judges_decodeParams params s s) ?_
      rintro - - ⟨items, last⟩ hlast
      obtain rfl : last = s + AbiType.consumedAll params := hlast
      dsimp only
      rw [sub_of_le (by omega), ok_bind]
      exact ⟨trivial, trivial, fun _ => rfl⟩
    | false =>
      rw [if_neg (by simp)]
      refine Judged.seq (judges_withCapacity a params.length) ?_
      rintro - - -
      refine Judged.andThen (judges_decodeParams params o o) ?_
      rintro - - ⟨items, last⟩ hlast
      obtain rfl : last = o + AbiType.consumedAll params := hlast
      dsimp only
      rw [sub_of_le (by omega), ok_bind, Nat.add_sub_cancel_left]
      exact ⟨trivial, trivial, fun _ => rfl⟩

theorem judges_decodeParams : ∀ (ps : List AbiParam) (base pos : ℕ),
    Judges (decodeParams a data ps base pos) (MembersSafe a data ps base pos)
      (MembersRead data ps base pos) fun r => r.2 = pos + AbiType.consumedAll ps
  | [], base, pos => ⟨trivial, trivial, rfl⟩
  | .mk _ t _ :: ps, base, pos => by
    -- the members behind this one are read one step further on
    have hrest (value : DecodedParam) : Judges (do
        let next ← add pos t.consumed
        let (values, last) ← decodeParams a data ps base next
        .ok (value :: values, last))
        (pos + t.consumed < 2 ^ 64 ∧ MembersSafe a data ps base (pos + t.consumed))
        (MembersRead data ps base (pos + t.consumed)) fun r =>
          r.2 = pos + (t.consumed + AbiType.consumedAll ps) := by
      refine Judged.seq (judges_add pos t.consumed) ?_
      rintro - next rfl
      refine Judged.andThen (judges_decodeParams ps base (pos + t.consumed)) ?_
      rintro - - ⟨values, last⟩ hlast
      obtain rfl : last = pos + t.consumed + AbiType.consumedAll ps := hlast
      exact ⟨trivial, trivial, Nat.add_assoc _ _ _⟩
    rw [decodeParams, MembersSafe, MembersRead, MemberReads, AbiType.consumedAll]
    cases hdyn : t.isDynamic with
    | true =>
      simp only [if_true]
      have hconsumed := AbiType.consumed_of_isDynamic hdyn
      rw [hconsumed] at hrest ⊢
      -- a dynamic member is read where its offset word leads to from `base`
      have hmember : Judges (do
          let relOffset ← readOffset data pos
          let absOffset ← add base relOffset
          decodeParam a true data t absOffset)
          (pos + 32 < 2 ^ 64 ∧ (NumberAt data pos →
            base + wordAt data pos < 2 ^ 64 ∧ Safe a data true t (base + wordAt data pos)))
          (NumberAt data pos ∧ Reads data true t (base + wordAt data pos)) fun _ => True := by
        refine Judged.bind (judges_readOffset data pos) ?_
        rintro - - relOffset rfl
        refine Judged.seq (judges_add base (wordAt data pos)) ?_
        rintro - absOffset rfl
        exact (judges_decodeParam t true _).conseq Iff.rfl (fun _ => Iff.rfl)
          fun _ _ => trivial
      have hall := Judged.bind hmember fun _ _ r _ => hrest r.1
      simp only [bind_assoc] at hall
      exact hall
    | false =>
      simp only [Bool.false_eq_true, if_false]
      refine Judged.bind (judges_decodeParam t false pos) ?_
      rintro - - ⟨value, consumed⟩ hconsumed
      obtain rfl : consumed = t.consumed := hconsumed rfl
      exact hrest value

end

end Types

/-- `x` is `y`, unless it ends for want of memory. -/
def Starved {α : Type} (x y : Decode α) : Prop := x = .error (.fault .capacity) ∨ x = y

namespace Starved

variable {α β : Type}

theorem refl (x : Decode α) : Starved x x := Or.inr rfl

theorem bind {x y : Decode α} {f g : α → Decode β} (hx : Starved x y)
    (hf : ∀ r, Starved (f r) (g r)) : Starved (x >>= f) (y >>= g) := by
  obtain hx | hx := hx
  · rw [hx]
    exact Or.inl rfl
  · rw [hx]
    cases y with
    | ok r => exact hf r
    | error stop => exact Starved.refl _

theorem branch {p : Prop} [Decidable p] {x x' y y' : Decode α} (hx : Starved x y)
    (hx' : Starved x' y') : Starved (if p then x else x') (if p then y else y') := by
  split_ifs
  · exact hx
  · exact hx'

end Starved

/-- Where `a` gives a vector, `b` gives it too. -/
def Allocator.Le (a b : Allocator) : Prop := ∀ n, a.grants n = true → b.grants n = true

theorem Allocator.within_le_roomy {data : Bytes} : (Allocator.within data).Le .roomy :=
  fun n h => Allocator.roomy_grants ((Allocator.within data).bounded n h)

section Memory

open Starved

variable {a b : Allocator} {data : Bytes}

theorem starved_withCapacity (h : a.Le b) (n : ℕ) : Starved (withCapacity a n) (withCapacity b n) := by
  cases hgrant : a.grants n with
  | true =>
    rw [withCapacity_of_grants (h n hgrant), withCapacity_of_grants hgrant]
    exact refl _
  | false =>
    rw [withCapacity, hgrant]
    exact Or.inl rfl

theorem starved_decodeItems {item item' : ℕ → Decode (DecodedParam × ℕ)}
    (h : ∀ p, Starved (item p) (item' p)) (n p : ℕ) :
    Starved (decodeItems item n p) (decodeItems item' n p) := by
  induction n generalizing p with
  | zero => exact refl _
  | succ n ih =>
    exact bind (h p) fun _ => bind (refl _) fun next => bind (ih next) fun _ => refl _

theorem starved_decodeArrayAt (h : a.Le b) {item item' : ℕ → Decode (DecodedParam × ℕ)}
    (hitem : ∀ p, Starved (item p) (item' p)) (start : ℕ) :
    Starved (decodeArrayAt a item data start) (decodeArrayAt b item' data start) := by
  rw [decodeArrayAt_eq, decodeArrayAt_eq]
  refine bind (refl _) fun len => bind (starved_withCapacity h len) fun _ => bind (refl _) fun pos => ?_
  exact bind (starved_decodeItems hitem len pos) fun _ => refl _

mutual

theorem starved_decodeParam (h : a.Le b) : ∀ (t : AbiType) (abs : Bool) (offset : ℕ),
    Starved (decodeParam a abs data t offset) (decodeParam b abs data t offset)
  | .uint _, _, _ => by
    rw [decodeParam, decodeParam]
    exact refl _
  | .int _, _, _ => by
    rw [decodeParam, decodeParam]
    exact refl _
  | .address, _, _ => by
    rw [decodeParam, decodeParam]
    exact refl _
  | .bool, _, _ => by
    rw [decodeParam, decodeParam]
    exact refl _
  | .fixedBytes _, _, _ => by
    rw [decodeParam, decodeParam]
    exact refl _
  | .bytes, _, _ => by
    rw [decodeParam, decodeParam]
    exact refl _
  | .string, _, _ => by
    rw [decodeParam, decodeParam]
    exact refl _
  | .array inner, abs, offset => by
    rw [decodeParam, decodeParam]
    have hitem := starved_decodeParam h inner false
    exact bind (refl _) fun start => bind (starved_decodeArrayAt h hitem start) fun _ => refl _
  | .fixedArray inner len, abs, offset => by
    rw [decodeParam, decodeParam]
    have hitems := starved_decodeItems (starved_decodeParam h inner false) len
    refine branch (bind (refl _) fun start => ?_) ?_
    · exact bind (starved_withCapacity h _) fun _ => bind (hitems start) fun _ => refl _
    · exact bind (starved_withCapacity h _) fun _ => bind (hitems offset) fun _ => refl _
  | .tuple params, abs, offset => by
    rw [decodeParam, decodeParam]
    have hmembers (start : ℕ) := starved_decodeParams h params start start
    refine branch (bind (refl _) fun start => ?_) ?_
    · exact bind (starved_withCapacity h _) fun _ => bind (hmembers start) fun _ => refl _
    · exact bind (starved_withCapacity h _) fun _ => bind (hmembers offset) fun _ => refl _

theorem starved_decodeParams (h : a.Le b) : ∀ (ps : List AbiParam) (base pos : ℕ),
    Starved (decodeParams a data ps base pos) (decodeParams b data ps base pos)
  | [], _, _ => by
    rw [decodeParams, decodeParams]
    exact refl _
  | .mk _ t _ :: ps, base, pos => by
    rw [decodeParams, decodeParams]
    have hrest := starved_decodeParams h ps base
    refine branch (bind (refl _) fun _ => bind (refl _) fun start => ?_)
      (bind (starved_decodeParam h t false pos) fun _ => ?_)
    · refine bind (starved_decodeParam h t true start) fun _ => bind (refl _) fun next => ?_
      exact bind (hrest next) fun _ => refl _
    · exact bind (refl _) fun next => bind (hrest next) fun _ => refl _

end

theorem starved_decodeInputs (h : a.Le b) (log : Log) (inputs : List AbiParam)
    (params : IndexMap String DecodedParam) (topicIdx dataOffset : ℕ) :
    Starved (decodeInputs a log inputs params topicIdx dataOffset)
      (decodeInputs b log inputs params topicIdx dataOffset) := by
  induction inputs generalizing params topicIdx dataOffset with
  | nil => exact refl _
  | cons p inputs ih =>
    obtain ⟨name, t, indexed⟩ := p
    rw [decodeInputs, decodeInputs]
    refine branch ?_ (bind (starved_decodeParam h t false dataOffset) fun _ => ?_)
    · cases log.topics[topicIdx]? with
      | none => exact refl _
      | some topic => exact bind (refl _) fun _ => ih _ _ _
    · exact bind (refl _) fun next => ih _ _ next

/-- With more memory the decoder does the same, but where it ended for want of it. -/
theorem starved_decodeWith (h : a.Le b) (d : LogDecoder) (log : Log) (contractName : String) :
    Starved (d.decodeWith a log contractName) (d.decodeWith b log contractName) := by
  unfold LogDecoder.decodeWith
  cases log.topics with
  | nil => exact refl _
  | cons selector topics =>
    dsimp only
    cases d.events selector with
    | none => exact refl _
    | some e => exact bind (starved_decodeInputs h log e.inputs _ 1 0) fun _ => refl _

end Memory

/-- A topic that is no integer of a forbidden kind. -/
def TopicSafe (t : AbiType) (topic : Hash32) : Prop :=
  match t with
  | .int bits => IntSafe topic.bytes bits
  | _ => True

/-- The inputs of an event can be read, from a topic and a place in the data on. -/
def InputsRead (log : Log) : List AbiParam → ℕ → ℕ → Prop
  | [], _, _ => True
  | .mk _ t indexed :: ps, topicIdx, o =>
    if indexed then topicIdx < log.topics.length ∧ InputsRead log ps (topicIdx + 1) o
    else Reads log.data false t o ∧ InputsRead log ps topicIdx (o + t.consumed)

/-- Each input that is come to, those before it being read, is safe. -/
def InputsSafe (a : Allocator) (log : Log) : List AbiParam → ℕ → ℕ → Prop
  | [], _, _ => True
  | .mk _ t indexed :: ps, topicIdx, o =>
    if indexed then ∀ topic, log.topics[topicIdx]? = some topic →
      TopicSafe t topic ∧ InputsSafe a log ps (topicIdx + 1) o
    else Safe a log.data false t o ∧ (Reads log.data false t o →
      o + t.consumed < 2 ^ 64 ∧ InputsSafe a log ps topicIdx (o + t.consumed))

theorem judges_decodeIndexedParam (t : AbiType) (topic : Hash32) :
    Judges (decodeIndexedParam t topic) (TopicSafe t topic) True fun _ => True := by
  cases t with
  | int bits => exact judges_decodeInt topic.size bits
  | _ => exact ⟨trivial, trivial, trivial⟩

theorem judges_decodeInputs {a : Allocator} {log : Log} (ps : List AbiParam)
    (params : IndexMap String DecodedParam) (topicIdx o : ℕ) :
    Judges (decodeInputs a log ps params topicIdx o) (InputsSafe a log ps topicIdx o)
      (InputsRead log ps topicIdx o) fun _ => True := by
  induction ps generalizing params topicIdx o with
  | nil => exact ⟨trivial, trivial, trivial⟩
  | cons p ps ih =>
    obtain ⟨name, t, indexed⟩ := p
    rw [decodeInputs, InputsSafe, InputsRead]
    cases indexed with
    | true =>
      simp only [if_true]
      cases htopic : log.topics[topicIdx]? with
      | none =>
        have hle := List.getElem?_eq_none_iff.mp htopic
        exact Judged.answer id (fun _ h => by cases h) (by omega)
      | some topic =>
        obtain ⟨hlt, -⟩ := List.getElem?_eq_some_iff.mp htopic
        have hall := Judged.seq (judges_decodeIndexedParam t topic) fun _ value _ =>
          ih (params.insert name value) (topicIdx + 1) o
        exact hall.conseq (by simp) (fun _ => and_iff_right hlt) fun _ h => h
    | false =>
      simp only [Bool.false_eq_true, if_false]
      refine Judged.bind (judges_decodeParam t false o) ?_
      rintro - - ⟨value, consumed⟩ hconsumed
      obtain rfl : consumed = t.consumed := hconsumed rfl
      refine Judged.seq (judges_add o t.consumed) ?_
      rintro - next rfl
      exact ih (params.insert name value) topicIdx (o + t.consumed)

theorem judges_decode {a : Allocator} {abi : ParsedAbi} {log : Log} {e : AbiEvent}
    (he : log.topics.head?.bind abi.eventOf = some e) (contractName : String) :
    Judges ((LogDecoder.new abi).decodeWith a log contractName) (InputsSafe a log e.inputs 1 0)
      (InputsRead log e.inputs 1 0) fun _ => True := by
  cases htopics : log.topics with
  | nil =>
    rw [htopics] at he
    cases he
  | cons selector topics =>
    rw [htopics] at he
    rw [LogDecoder.decode_of_event htopics he]
    refine Judged.andThen (judges_decodeInputs e.inputs _ 1 0) ?_
    rintro - - params -
    exact ⟨trivial, trivial, trivial⟩

/-- The event that the ABI lists last under the first topic has inputs that are safe to read. -/
def LogSafe (a : Allocator) (abi : ParsedAbi) (log : Log) : Prop :=
  ∀ e, log.topics.head?.bind abi.eventOf = some e → InputsSafe a log e.inputs 1 0

theorem decodeWith_faultless_iff (a : Allocator) (abi : ParsedAbi) (log : Log)
    (contractName : String) :
    (∀ f, (LogDecoder.new abi).decodeWith a log contractName ≠ .error (.fault f)) ↔
      LogSafe a abi log := by
  have hfault : (∀ f, (LogDecoder.new abi).decodeWith a log contractName ≠ .error (.fault f)) ↔
      ∀ stop, (LogDecoder.new abi).decodeWith a log contractName = .error stop → ¬stop.Faulty := by
    constructor
    · intro h stop hstop hfaulty
      cases stop with
      | err e => exact hfaulty
      | fault f => exact h f hstop
    · intro h f hf
      exact h _ hf trivial
  rw [hfault]
  cases htopics : log.topics with
  | nil =>
    simp [LogDecoder.decodeWith, LogSafe, htopics, Stop.Faulty]
  | cons selector topics =>
    cases hevent : abi.eventOf selector with
    | none =>
      simp [LogDecoder.decodeWith, LogSafe, htopics, LogDecoder.events_new, hevent, Stop.Faulty]
    | some e =>
      have hfind : log.topics.head?.bind abi.eventOf = some e := by rw [htopics]; exact hevent
      rw [(judges_decode hfind contractName).safe_iff]
      simp [LogSafe, htopics, hevent]

/-- The decoder asks for a vector of more elements than the data has words. -/
def LogDecoder.OverAsks (d : LogDecoder) (log : Log) (contractName : String) : Prop :=
  d.decodeWith (.within log.data) log contractName = .error (.fault .capacity)

/-- The decoder answers, with an event or an error, and asks for no vector that the data could not
fill, exactly on the logs that lead it to no offset or length it cannot count with, to no array
longer than the data, and to no integer type of width zero or negative integer of 128 bits. -/
theorem decode_total_iff (abi : ParsedAbi) (log : Log) (contractName : String) :
    ((∀ f, (LogDecoder.new abi).decode log contractName ≠ .error (.fault f)) ∧
      ¬(LogDecoder.new abi).OverAsks log contractName) ↔ LogSafe (.within log.data) abi log := by
  rw [← decodeWith_faultless_iff _ abi log contractName]
  obtain hasks | hsame := starved_decodeWith Allocator.within_le_roomy (LogDecoder.new abi) log
    contractName
  · constructor
    · intro h
      exact absurd hasks h.2
    · intro h
      exact absurd hasks (h _)
  · rw [LogDecoder.decode, ← hsame]
    constructor
    · intro h
      exact h.1
    · intro h
      exact ⟨h, h _⟩

/-- `[{"type": "event", "name": "Blob", "inputs": [{"name": "b", "type": "bytes"}]}]`. -/
def blobJson : List Json :=
  [.object [.mk "type" (.string "event"), .mk "name" (.string "Blob"), .mk "inputs" (.array
    [.object [.mk "name" (.string "b"), .mk "type" (.string "bytes")]])]]

def blobEvent : AbiEvent where
  name := "Blob"
  signature := "Blob(bytes)"
  selector := Hash32.zero
  inputs := [.mk "b" .bytes false]

def blobLog (data : Bytes) : Log where
  id := "1-0"
  chainId := 1
  address := Address.zero
  topics := [Hash32.zero]
  data := data
  blockNumber := 1
  blockHash := Hash32.zero
  transactionHash := Hash32.zero
  logIndex := 0
  transactionIndex := 0
  removed := false

theorem parseAbi_blob : parseAbi (fun _ => .ok blobJson) (fun _ => Hash32.zero) "" =
    .ok ⟨[blobEvent], []⟩ := by
  rfl

/-- Three bytes behind an offset. -/
def blobData : Bytes := HeadTail.word 32 ++ (HeadTail.word 3 ++ [1, 2, 3])

theorem decode_total_iff_blob :
    (∀ f, (LogDecoder.new ⟨[blobEvent], []⟩).decode (blobLog blobData) "Store" ≠
        .error (.fault f)) ∧
      ¬(LogDecoder.new ⟨[blobEvent], []⟩).OverAsks (blobLog blobData) "Store" := by
  have hoffset : wordAt blobData 0 = 32 := by decide +kernel
  have hsize : wordAt blobData 32 = 3 := by decide +kernel
  refine (decode_total_iff _ _ _).mpr ?_
  intro e he
  cases he
  refine ⟨⟨by decide, fun _ => ?_⟩, fun _ => ⟨by decide, trivial⟩⟩
  show BytesSafe blobData (wordAt blobData 0)
  rw [hoffset, BytesSafe, hsize]
  exact ⟨by decide, fun _ => by decide⟩

/-- An offset of all ones in 64 bits overflows when the length behind it is looked for. -/
theorem decode_not_total :
    ¬∀ (fromStr : String → Except String (List Json)) (keccak256 : Bytes → Hash32) (json : String)
      (abi : ParsedAbi) (log : Log) (contractName : String),
      parseAbi fromStr keccak256 json = .ok abi → log.data.length < 2 ^ 63 →
      ∀ f, (LogDecoder.new abi).decode log contractName ≠ .error (.fault f) := by
  intro h
  exact h _ _ _ _ (blobLog (HeadTail.word (2 ^ 64 - 1))) "Store" parseAbi_blob (by decide +kernel)
    .overflow rfl

-- a negative integer of 128 bits, and an array of more elements than its data has words, which is
-- refused where the memory for it is missing
example : decodeParam .roomy false (HeadTail.word (2 ^ 256 - 1)) (.int 128) 0 = .error (.fault .shift) := by
  rfl

example : let data := HeadTail.word 32 ++ HeadTail.word (2 ^ 40)
    decodeParam (.within data) false data (.array .bool) 0 = .error (.fault .capacity) := by
  rfl

end ForgeIndex
