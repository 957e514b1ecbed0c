import ForgeIndex.Abi.Words

/-!
# Decoding what was encoded

The decoder takes the offsets inside arrays, fixed arrays and inner tuples as distances from the
start of the data, and steps over a fixed array as if its elements were words.  Where a value does
not bring it there, it is read back.
-/

namespace ForgeIndex

open HeadTail (Part Laid word layout laid_layout)

mutual

/-- The values that keep the decoder away from a wrong offset, a wrong step and a vector of more than
`isize::MAX` bytes: the elements of arrays are static, dynamic members of a tuple are bytes, strings
or arrays, and a value after which something follows takes what the decoder steps over. -/
def Readable : AbiType → AbiValue → Prop
  | .int bits, .int i => bits = 128 → 0 ≤ i
  | .array inner, .seq items =>
    items = [] ∨ (inner.isDynamic = false ∧ 32 * items.length < 2 ^ 63 ∧
      (items.length = 1 ∨ inner.consumed = inner.headSize) ∧ ∀ x ∈ items, Readable inner x)
  | .fixedArray inner len, .seq items =>
    len = 0 ∨ (inner.isDynamic = false ∧ 32 * len < 2 ^ 63 ∧
      (len = 1 ∨ inner.consumed = inner.headSize) ∧ ∀ x ∈ items, Readable inner x)
  | .tuple params, .seq items => 32 * params.length < 2 ^ 63 ∧ ReadableAll params items
  | _, _ => True

def ReadableAll : List AbiParam → List AbiValue → Prop
  | .mk _ t _ :: ps, v :: vs =>
    Readable t v ∧ (t.isDynamic = true → t.isDirect = true) ∧
      (ps = [] ∨ t.consumed = t.headSize) ∧ ReadableAll ps vs
  | _, _ => True

end

variable {data : Bytes}

theorem decodeBytesAt_of_at (hlen : data.length < 2 ^ 63) {s : ℕ} {b : Bytes}
    (h : At data s (encodeBytes b)) : ∃ n, decodeBytesAt data s = .ok (b, n) := by
  obtain ⟨hword, hrest⟩ := At.append_iff.mp h
  have hb := (At.append_iff.mp hrest).1
  rw [HeadTail.length_word] at hb
  have hle := hb.le
  have hread := hb.take_drop
  refine ⟨32 + (b.length + 31) / 32 * 32, ?_⟩
  rw [decodeBytesAt, readSlot_of_at hlen (HeadTail.length_word _) hword, ok_bind,
    u256ToUsize_word (by omega), ok_bind, add_of_lt (by omega), ok_bind, add_of_lt (by omega),
    ok_bind, Nat.min_eq_left hle, slice_of_le ⟨by omega, hle⟩, ok_bind, paddedLen,
    mul_of_lt (by omega), ok_bind, add_of_lt (by omega), ok_bind, Nat.add_sub_cancel_left, hread]

theorem decodeItems_of_laid {item : ℕ → Decode (DecodedParam × ℕ)} {f : AbiValue → DecodedParam}
    {enc : AbiValue → Bytes} {c base pos o : ℕ} {items : List AbiValue}
    (hitem : ∀ x ∈ items, ∀ p, At data p (enc x) → item p = .ok (f x, c) ∧ p + c < 2 ^ 64)
    (hstep : items.length ≤ 1 ∨ ∀ x ∈ items, (enc x).length = c)
    (h : Laid data base pos o (items.map fun x => (false, enc x))) :
    decodeItems item items.length pos = .ok (items.map f, pos + items.length * c) := by
  induction items generalizing pos with
  | nil => simp [decodeItems]
  | cons x xs ih =>
    obtain ⟨hx, hxs⟩ := h.head
    obtain ⟨hread, hlt⟩ := hitem x List.mem_cons_self pos hx
    rw [List.length_cons, decodeItems, hread, ok_bind]
    dsimp only
    rw [add_of_lt hlt, ok_bind]
    cases xs with
    | nil => simp [decodeItems]
    | cons y ys =>
      have hsize : ∀ z ∈ x :: y :: ys, (enc z).length = c := by
        apply hstep.resolve_left
        simp
      rw [hsize x List.mem_cons_self] at hxs
      have hrest := ih (fun z hz => hitem z (List.mem_cons_of_mem _ hz))
        (Or.inr fun z hz => hsize z (List.mem_cons_of_mem _ hz)) hxs
      rw [hrest, ok_bind]
      have hlast : pos + c + (y :: ys).length * c = pos + ((y :: ys).length + 1) * c := by ring
      rw [hlast]
      rfl

theorem decodeArrayAt_of_at (hlen : data.length < 2 ^ 63) {item : ℕ → Decode (DecodedParam × ℕ)}
    {f : AbiValue → DecodedParam} {enc : AbiValue → Bytes} {d : Bool} {c s : ℕ}
    {items : List AbiValue} (hstatic : items = [] ∨ d = false)
    (hroom : 32 * items.length < 2 ^ 63)
    (hitem : ∀ x ∈ items, ∀ p, At data p (enc x) → item p = .ok (f x, c) ∧ p + c < 2 ^ 64)
    (hstep : items.length ≤ 1 ∨ ∀ x ∈ items, (enc x).length = c)
    (h : At data s (word items.length ++ layout (items.map fun x => (d, enc x)))) :
    ∃ n, decodeArrayAt .roomy item data s = .ok (items.map f, n) := by
  obtain ⟨hword, hlayout⟩ := At.append_iff.mp h
  have hle := hword.le
  rw [HeadTail.length_word] at hlayout hle
  have hparts : (items.map fun x => (d, enc x)) = items.map fun x => (false, enc x) := by
    obtain rfl | rfl := hstatic <;> rfl
  rw [hparts] at hlayout
  refine ⟨s + 32 + items.length * c - s, ?_⟩
  rw [decodeArrayAt, readSlot_of_at hlen (HeadTail.length_word _) hword, ok_bind,
    u256ToUsize_word (by omega), ok_bind, withCapacity_roomy hroom, ok_bind, add_of_lt (by omega),
    ok_bind, decodeItems_of_laid hitem hstep (laid_layout hlayout), ok_bind]
  dsimp only
  rw [sub_of_le (by omega), ok_bind]

/-- What a static value at `o` gives. -/
def ReadsAt (data : Bytes) (abs : Bool) (t : AbiType) (v : AbiValue) (o : ℕ) : Prop :=
  decodeParam .roomy abs data t o = .ok (decoded t v, t.consumed) ∧ o + t.consumed < data.length + 2 ^ 63

theorem decodeParam_word (hlen : data.length < 2 ^ 63) {t : AbiType} {v : AbiValue} {abs : Bool}
    {o : ℕ} (ht : t.isWord = true) (hv : HasType t v) (hneg : t = .int 128 → ∀ i, v = .int i → 0 ≤ i)
    (h : At data o (encode t v)) : ReadsAt data abs t v o := by
  have hstatic : t.isDynamic = false ∧ t.headSize = 32 ∧ t.consumed = 32 := by
    cases t <;> first | exact ⟨rfl, rfl, rfl⟩ | cases ht
  obtain ⟨hdyn, hsize, hconsumed⟩ := hstatic
  have hword : (encode t v).length = 32 := (length_encode t v hdyn hv).trans hsize
  have hle := h.le
  have hread := readSlot_of_at hlen hword h
  refine ⟨?_, by omega⟩
  have hslot : readSlot data o = .ok (Hash32.mk (encode t v) hword).bytes := hread
  rw [decodeParam_of_slot ht hslot, decodeIndexedParam_encode ht hv hneg rfl, ok_bind, hconsumed]

mutual

theorem decodeParam_static (hlen : data.length < 2 ^ 63) : ∀ (t : AbiType) (v : AbiValue)
    (abs : Bool) (o : ℕ), t.isDynamic = false → HasType t v → Readable t v →
    At data o (encode t v) → ReadsAt data abs t v o
  | .uint bits, v, abs, o, _, hv, _, h => decodeParam_word hlen rfl hv (by simp) h
  | .int bits, v, abs, o, _, hv, hr, h => by
    apply decodeParam_word hlen rfl hv _ h
    rintro heq i rfl
    exact hr (AbiType.int.inj heq)
  | .address, v, abs, o, _, hv, _, h => decodeParam_word hlen rfl hv (by simp) h
  | .bool, v, abs, o, _, hv, _, h => decodeParam_word hlen rfl hv (by simp) h
  | .fixedBytes n, v, abs, o, _, hv, _, h => decodeParam_word hlen rfl hv (by simp) h
  | .bytes, _, _, _, ht, _, _, _ => by cases ht
  | .string, _, _, _, ht, _, _, _ => by cases ht
  | .array _, _, _, _, ht, _, _, _ => by cases ht
  | .fixedArray inner len, v, abs, o, ht, hv, hr, h => by
    have hinner : inner.isDynamic = false := ht
    obtain ⟨items, rfl, rfl, hitems⟩ := hv
    rw [encode, hinner] at h
    have hle := h.le
    have hroom : 32 * items.length < 2 ^ 63 := by
      obtain hzero | ⟨-, hroom, -⟩ := hr <;> omega
    have hitem : ∀ x ∈ items, ∀ p, At data p (encode inner x) →
        decodeParam .roomy false data inner p = .ok (decoded inner x, inner.consumed) ∧
          p + inner.consumed < 2 ^ 64 := by
      intro x hx p hp
      obtain hzero | ⟨-, -, -, hall⟩ := hr
      · rw [List.length_eq_zero_iff.mp hzero] at hx
        cases hx
      · have hread := decodeParam_static hlen inner x false p hinner (hitems x hx) (hall x hx) hp
        exact ⟨hread.1, by have := hread.2; omega⟩
    have hstep : items.length ≤ 1 ∨ ∀ x ∈ items, (encode inner x).length = inner.consumed := by
      obtain hzero | ⟨-, -, hone | heq, -⟩ := hr
      · exact Or.inl (by omega)
      · exact Or.inl (by omega)
      · exact Or.inr fun x hx => by rw [length_encode inner x hinner (hitems x hx), heq]
    have hconsumed : (AbiType.fixedArray inner items.length).consumed = 32 * items.length := by
      rw [AbiType.consumed, hinner]
      rfl
    refine ⟨?_, by omega⟩
    rw [hconsumed, decodeParam, if_neg (by simp [hinner]), withCapacity_roomy hroom, ok_bind,
      decodeItems_of_laid hitem hstep (laid_layout h), ok_bind]
    dsimp only
    rw [mul_of_lt (by omega), ok_bind, decoded]
  | .tuple params, v, abs, o, ht, hv, hr, h => by
    have hparams : AbiType.anyDynamic params = false := ht
    obtain ⟨items, rfl, hitems⟩ := hv
    obtain ⟨hroom, hall⟩ := hr
    obtain ⟨hread, hle⟩ :=
      decodeParams_laid hlen params items o o _ hitems hall (laid_layout h)
    have hconsumed : (AbiType.tuple params).consumed = AbiType.consumedAll params := by
      rw [AbiType.consumed, hparams]
      rfl
    refine ⟨?_, by rw [hconsumed]; exact hle⟩
    rw [hconsumed, decodeParam, if_neg (by simp [hparams]), withCapacity_roomy hroom, ok_bind,
      hread, ok_bind]
    dsimp only
    rw [sub_of_le (by omega), ok_bind, decoded, Nat.add_sub_cancel_left]

theorem decodeParam_direct (hlen : data.length < 2 ^ 63) : ∀ (t : AbiType) (v : AbiValue)
    (s : ℕ), t.isDirect = true → HasType t v → Readable t v →
    At data s (encode t v) → ∃ n, decodeParam .roomy true data t s = .ok (decoded t v, n)
  | .bytes, _, s, _, ⟨b, hv⟩, _, h => by
    subst hv
    obtain ⟨n, hread⟩ := decodeBytesAt_of_at hlen h
    exact ⟨n, by rw [decodeParam, startOf, if_pos rfl, ok_bind, hread, ok_bind]; rfl⟩
  | .string, _, s, _, ⟨str, hv⟩, _, h => by
    subst hv
    obtain ⟨n, hread⟩ := decodeBytesAt_of_at hlen h
    refine ⟨n, ?_⟩
    rw [decodeParam, startOf, if_pos rfl, ok_bind, hread, ok_bind]
    dsimp only
    rw [fromUtf8Lossy, Utf8.decodeLossy_encode, String.ofList_toList]
    rfl
  | .array inner, v, s, _, hv, hr, h => by
    obtain ⟨items, rfl, hitems⟩ := hv
    have hstatic : items = [] ∨ inner.isDynamic = false := hr.imp id And.left
    have hroom : 32 * items.length < 2 ^ 63 := by
      obtain rfl | ⟨-, hroom, -⟩ := hr
      · simp
      · exact hroom
    have hitem : ∀ x ∈ items, ∀ p, At data p (encode inner x) →
        decodeParam .roomy false data inner p = .ok (decoded inner x, inner.consumed) ∧
          p + inner.consumed < 2 ^ 64 := by
      intro x hx p hp
      obtain rfl | ⟨hinner, -, -, hall⟩ := hr
      · cases hx
      · have hread := decodeParam_static hlen inner x false p hinner (hitems x hx) (hall x hx) hp
        exact ⟨hread.1, by have := hread.2; omega⟩
    have hstep : items.length ≤ 1 ∨ ∀ x ∈ items, (encode inner x).length = inner.consumed := by
      obtain rfl | ⟨hinner, -, hone | heq, -⟩ := hr
      · exact Or.inl (by simp)
      · exact Or.inl (by omega)
      · exact Or.inr fun x hx => by rw [length_encode inner x hinner (hitems x hx), heq]
    obtain ⟨n, hread⟩ := decodeArrayAt_of_at hlen hstatic hroom hitem hstep h
    exact ⟨n, by rw [decodeParam, startOf, if_pos rfl, ok_bind, hread, ok_bind]; rfl⟩
  | .uint _, _, _, ht, _, _, _ => by cases ht
  | .int _, _, _, ht, _, _, _ => by cases ht
  | .address, _, _, ht, _, _, _ => by cases ht
  | .bool, _, _, ht, _, _, _ => by cases ht
  | .fixedBytes _, _, _, ht, _, _, _ => by cases ht
  | .fixedArray _ _, _, _, ht, _, _, _ => by cases ht
  | .tuple _, _, _, ht, _, _, _ => by cases ht

theorem decodeParams_laid (hlen : data.length < 2 ^ 63) : ∀ (ps : List AbiParam)
    (vs : List AbiValue) (base pos o : ℕ), HasTypes ps vs → ReadableAll ps vs →
    Laid data base pos o (encodeParts ps vs) →
    decodeParams .roomy data ps base pos = .ok (decodedAll ps vs, pos + AbiType.consumedAll ps) ∧
      pos + AbiType.consumedAll ps < data.length + 2 ^ 63
  | [], _, base, pos, o, hvs, _, h => by
    have hle := h.le
    subst hvs
    exact ⟨rfl, by rw [AbiType.consumedAll]; omega⟩
  | .mk _ t _ :: ps, _, base, pos, o, ⟨x, xs, hvs, hx, hxs⟩, hr, h => by
    subst hvs
    obtain ⟨hread, hdirect, hlast, hrest⟩ := hr
    rw [encodeParts] at h
    rw [decodeParams, decodedAll, AbiType.consumedAll, ← Nat.add_assoc]
    cases ht : t.isDynamic with
    | true =>
      rw [ht] at h
      obtain ⟨hword, hpart, hlaid⟩ := h.tail
      have hle := hpart.le
      have hle' := hword.le
      rw [HeadTail.length_word] at hle'
      obtain ⟨n, hvalue⟩ := decodeParam_direct hlen t x (base + o) (hdirect ht) hx hread hpart
      obtain ⟨htail, hbound⟩ := decodeParams_laid hlen ps xs base (pos + 32) _ hxs hrest hlaid
      rw [AbiType.consumed_of_isDynamic ht]
      refine ⟨?_, hbound⟩
      rw [if_pos rfl, readOffset_of_at hlen (by omega) hword, ok_bind, add_of_lt (by omega),
        ok_bind, hvalue, ok_bind]
      dsimp only
      rw [add_of_lt (by omega), ok_bind, htail, ok_bind]
    | false =>
      rw [ht] at h
      obtain ⟨hpart, hlaid⟩ := h.head
      obtain ⟨hvalue, hbound⟩ := decodeParam_static hlen t x false pos ht hx hread hpart
      rw [if_neg (by simp), hvalue, ok_bind]
      dsimp only
      rw [add_of_lt (by omega), ok_bind]
      -- a wrong step matters only when something follows
      obtain rfl | heq := hlast
      · subst hxs
        exact ⟨rfl, hbound⟩
      · rw [length_encode t x ht hx, ← heq] at hlaid
        obtain ⟨htail, hbound'⟩ := decodeParams_laid hlen ps xs base _ o hxs hrest hlaid
        exact ⟨by rw [htail, ok_bind], hbound'⟩

end

theorem decodeParam_of_offset {t : AbiType} {o s n : ℕ} {value : DecodedParam}
    (ht : t.isDirect = true) (hoffset : readOffset data o = .ok s)
    (h : decodeParam .roomy true data t s = .ok (value, n)) :
    decodeParam .roomy false data t o = .ok (value, 32) := by
  cases t with
  | bytes | string | array =>
    rw [decodeParam, startOf, if_pos rfl, ok_bind] at h
    obtain ⟨r, hread, hvalue⟩ := bind_eq_ok.mp h
    cases hvalue
    rw [decodeParam, startOf, if_neg (by simp), hoffset, ok_bind, hread, ok_bind]
    rfl
  | _ => cases ht

/-- An input of an event, whose offsets count from the start of the data, is read back. -/
theorem decodeParam_laid (hlen : data.length < 2 ^ 63) {t : AbiType} {v : AbiValue} {pos o : ℕ}
    {rest : List Part} (hv : HasType t v) (hr : Readable t v)
    (h : Laid data 0 pos o ((t.isDynamic, encode t v) :: rest)) : ReadsAt data false t v pos := by
  cases ht : t.isDynamic with
  | false =>
    rw [ht] at h
    exact decodeParam_static hlen t v false pos ht hv hr h.head.1
  | true =>
    rw [ht] at h
    obtain ⟨hword, hpart, -⟩ := h.tail
    rw [Nat.zero_add] at hpart
    have hle := hpart.le
    have hle' := hword.le
    rw [HeadTail.length_word] at hle'
    have hoffset := readOffset_of_at hlen (by omega) hword
    rw [ReadsAt, AbiType.consumed_of_isDynamic ht]
    refine ⟨?_, by omega⟩
    -- a fixed array or a tuple reads its offset itself, the other types do so in `startOf`
    cases t with
    | fixedArray inner len =>
      obtain ⟨items, rfl, rfl, -⟩ := hv
      have hinner : inner.isDynamic = true := ht
      obtain hzero | ⟨hstatic, -⟩ := hr
      · rw [List.length_eq_zero_iff.mp hzero, decodeParam, if_pos hinner, hoffset, ok_bind,
          withCapacity_roomy (by decide), ok_bind, List.length_nil, decodeItems, ok_bind]
        dsimp only
        rw [sub_of_le (le_refl _), ok_bind]
        rfl
      · rw [hinner] at hstatic
        cases hstatic
    | tuple params =>
      obtain ⟨items, rfl, hitems⟩ := hv
      have hparams : AbiType.anyDynamic params = true := ht
      obtain ⟨hroom, hall⟩ := hr
      obtain ⟨hread, -⟩ := decodeParams_laid hlen params items o o _ hitems hall (laid_layout hpart)
      rw [decodeParam, if_pos hparams, hoffset, ok_bind, withCapacity_roomy hroom, ok_bind, hread,
        ok_bind]
      dsimp only
      rw [sub_of_le (by omega), ok_bind, decoded]
    | bytes | string | array =>
      obtain ⟨n, hread⟩ := decodeParam_direct hlen _ v o rfl hv hr hpart
      exact decodeParam_of_offset rfl hoffset hread
    | _ => cases ht

end ForgeIndex
