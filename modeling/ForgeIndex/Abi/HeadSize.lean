import ForgeIndex.Abi.Encoding

/-!
# How far a static value moves the decoder

A word or a tuple moves the decoder over what it has read.  A fixed array moves it 32 bytes for
each element, whatever the element takes.
-/

namespace ForgeIndex

theorem eq_of_add {a b n : ℕ} (h : add a b = .ok n) : n = a + b := by
  unfold add at h
  split_ifs at h
  exact (Except.ok.inj h).symm

theorem eq_of_sub {a b n : ℕ} (h : sub a b = .ok n) : n = a - b := by
  unfold sub at h
  split_ifs at h
  exact (Except.ok.inj h).symm

theorem eq_of_mul {a b n : ℕ} (h : mul a b = .ok n) : n = a * b := by
  unfold mul at h
  split_ifs at h
  exact (Except.ok.inj h).symm

section Returned

variable {a : Allocator} {data : Bytes}

theorem size_of_word {f : Bytes → DecodedParam} {offset : ℕ} {r : DecodedParam × ℕ}
    (h : (do
      let slot ← readSlot data offset
      .ok (f slot, 32)) = (Except.ok r : Decode (DecodedParam × ℕ))) : r.2 = 32 := by
  obtain ⟨slot, -, hr⟩ := bind_eq_ok.mp h
  cases hr
  rfl

mutual

theorem size_of_decodeParam : ∀ (t : AbiType) (offset : ℕ) (r : DecodedParam × ℕ),
    t.isDynamic = false → decodeParam a false data t offset = .ok r → r.2 = t.consumed
  | .uint _, _, _, _, h => size_of_word (by rw [decodeParam] at h; exact h)
  | .address, _, _, _, h => size_of_word (by rw [decodeParam] at h; exact h)
  | .bool, _, _, _, h => size_of_word (by rw [decodeParam] at h; exact h)
  | .fixedBytes _, _, _, _, h => size_of_word (by rw [decodeParam] at h; exact h)
  | .int _, _, _, _, h => by
    rw [decodeParam] at h
    obtain ⟨slot, -, hvalue⟩ := bind_eq_ok.mp h
    obtain ⟨value, -, hr⟩ := bind_eq_ok.mp hvalue
    cases hr
    rfl
  | .bytes, _, _, ht, _ => by cases ht
  | .string, _, _, ht, _ => by cases ht
  | .array _, _, _, ht, _ => by cases ht
  | .fixedArray inner len, offset, _, ht, h => by
    have hinner : inner.isDynamic = false := ht
    rw [decodeParam, hinner, if_neg (by simp)] at h
    -- the loop ends somewhere, and the size is not taken from there
    obtain ⟨_, -, hitems⟩ := bind_eq_ok.mp h
    obtain ⟨items, -, hsize⟩ := bind_eq_ok.mp hitems
    obtain ⟨size, hmul, hr⟩ := bind_eq_ok.mp hsize
    cases hr
    rw [AbiType.consumed, hinner, if_neg (by simp)]
    exact eq_of_mul hmul
  | .tuple params, offset, _, ht, h => by
    have hparams : AbiType.anyDynamic params = false := ht
    rw [decodeParam, hparams, if_neg (by simp)] at h
    obtain ⟨_, -, hitems⟩ := bind_eq_ok.mp h
    obtain ⟨items, hlast, hsize⟩ := bind_eq_ok.mp hitems
    obtain ⟨size, hsub, hr⟩ := bind_eq_ok.mp hsize
    cases hr
    have hend := end_of_decodeParams params offset offset items hparams hlast
    rw [AbiType.consumed, hparams, if_neg (by simp), eq_of_sub hsub, hend]
    omega

theorem end_of_decodeParams : ∀ (ps : List AbiParam) (base pos : ℕ) (r : List DecodedParam × ℕ),
    AbiType.anyDynamic ps = false → decodeParams a data ps base pos = .ok r →
    r.2 = pos + AbiType.consumedAll ps
  | [], _, _, _, _, h => by
    rw [decodeParams] at h
    cases h
    rfl
  | .mk _ t _ :: ps, base, pos, _, hps, h => by
    obtain ⟨ht, hrest⟩ := Bool.or_eq_false_iff.mp hps
    rw [decodeParams, ht, if_neg (by simp)] at h
    obtain ⟨value, hvalue, hnext⟩ := bind_eq_ok.mp h
    obtain ⟨next, hadd, hvalues⟩ := bind_eq_ok.mp hnext
    obtain ⟨values, hlast, hr⟩ := bind_eq_ok.mp hvalues
    cases hr
    have hsize := size_of_decodeParam t pos value ht hvalue
    have hend := end_of_decodeParams ps base next values hrest hlast
    have hadd := eq_of_add hadd
    rw [AbiType.consumedAll]
    omega

end

end Returned

mutual

/-- The fixed arrays of a static type that stand in no other one, by their elements' type and their
length. -/
def AbiType.outerArrays : AbiType → List (AbiType × ℕ)
  | .fixedArray inner len => [(inner, len)]
  | .tuple params => AbiType.outerArraysAll params
  | .uint _ => []
  | .int _ => []
  | .address => []
  | .bool => []
  | .fixedBytes _ => []
  | .bytes => []
  | .string => []
  | .array _ => []

def AbiType.outerArraysAll : List AbiParam → List (AbiType × ℕ)
  | [] => []
  | .mk _ t _ :: ps => t.outerArrays ++ AbiType.outerArraysAll ps

end

/-- What the elements of some arrays take in the head. -/
def elementBytes (arrays : List (AbiType × ℕ)) : ℕ :=
  (arrays.map fun a => a.2 * a.1.headSize).sum

def elementCount (arrays : List (AbiType × ℕ)) : ℕ := (arrays.map Prod.snd).sum

@[simp] theorem elementBytes_append (as bs : List (AbiType × ℕ)) :
    elementBytes (as ++ bs) = elementBytes as + elementBytes bs := by
  simp [elementBytes]

@[simp] theorem elementCount_append (as bs : List (AbiType × ℕ)) :
    elementCount (as ++ bs) = elementCount as + elementCount bs := by
  simp [elementCount]

/-- The elements of the outer fixed arrays take one word each, on the average. -/
def AbiType.WordElements (t : AbiType) : Prop :=
  elementBytes t.outerArrays = 32 * elementCount t.outerArrays

instance (t : AbiType) : Decidable t.WordElements :=
  inferInstanceAs (Decidable (elementBytes t.outerArrays = 32 * elementCount t.outerArrays))

mutual

/-- The two sizes differ by what the elements of the outer fixed arrays take beside one word. -/
theorem AbiType.consumed_add_elementBytes : ∀ t : AbiType, t.isDynamic = false →
    t.consumed + elementBytes t.outerArrays = t.headSize + 32 * elementCount t.outerArrays
  | .uint _, _ => rfl
  | .int _, _ => rfl
  | .address, _ => rfl
  | .bool, _ => rfl
  | .fixedBytes _, _ => rfl
  | .bytes, h => by cases h
  | .string, h => by cases h
  | .array _, h => by cases h
  | .fixedArray inner len, h => by
    have hinner : inner.isDynamic = false := h
    simp only [consumed, headSize, hinner, outerArrays, elementBytes, elementCount,
      Bool.false_eq_true, if_false, List.map_cons, List.map_nil, List.sum_cons, List.sum_nil]
    omega
  | .tuple params, h => by
    have hparams : anyDynamic params = false := h
    have hall := consumedAll_add_elementBytes params hparams
    simp only [consumed, headSize, hparams, outerArrays, Bool.false_eq_true, if_false]
    exact hall

theorem AbiType.consumedAll_add_elementBytes : ∀ ps : List AbiParam, anyDynamic ps = false →
    consumedAll ps + elementBytes (outerArraysAll ps) =
      headSizes ps + 32 * elementCount (outerArraysAll ps)
  | [], _ => rfl
  | .mk _ t _ :: ps, h => by
    obtain ⟨ht, hps⟩ := Bool.or_eq_false_iff.mp h
    have hfirst := consumed_add_elementBytes t ht
    have hrest := consumedAll_add_elementBytes ps hps
    rw [consumedAll, headSizes, outerArraysAll, elementBytes_append, elementCount_append]
    omega

end

/-- A decoded static value moves the decoder over its place in the head exactly when the elements
of its fixed arrays take one word each. -/
theorem decode_consumes_iff {a : Allocator} {t : AbiType} (ht : t.isDynamic = false) {data : Bytes} {offset : ℕ}
    {v : DecodedParam} {consumed : ℕ}
    (h : decodeParamFromData a t data offset = .ok (v, consumed)) :
    consumed = t.headSize ↔ t.WordElements := by
  have hsize : consumed = t.consumed := size_of_decodeParam t offset _ ht h
  have hsum := t.consumed_add_elementBytes ht
  rw [hsize, AbiType.WordElements]
  omega

/-- `(bool,bool[2])`. -/
def switchesType : AbiType :=
  .tuple [.mk "main" .bool false, .mk "on" (.fixedArray .bool 2) false]

theorem decode_consumes_iff_switches :
    ∃ v, decodeParamFromData .roomy switchesType (List.replicate 96 0) 0 = .ok (v, 96) ∧
      96 = switchesType.headSize := by
  have hdecode : decodeParamFromData .roomy switchesType (List.replicate 96 0) 0 =
      .ok (.tuple [.bool false, .array [.bool false, .bool false]], 96) := rfl
  exact ⟨_, hdecode, (decode_consumes_iff rfl hdecode).mpr (by decide)⟩

/-- A matrix of two words moves the decoder over one. -/
theorem decode_not_consumes :
    ¬∀ (a : Allocator) (t : AbiType) (data : Bytes) (offset : ℕ) (v : DecodedParam) (consumed : ℕ),
      t.isDynamic = false → decodeParamFromData a t data offset = .ok (v, consumed) →
      consumed = t.headSize := by
  intro h
  have hsize := h .roomy (.fixedArray (.fixedArray .bool 2) 1) (List.replicate 64 0) 0
    (.array [.array [.bool false, .bool false]]) 32 rfl rfl
  exact absurd hsize (by decide)

end ForgeIndex
