import ForgeIndex.Lib.HeadTail
import ForgeIndex.Abi.Decoder

/-!
# What the decoder is for

The values of the ABI types, their Solidity encoding, and the decoded parameter that stands for a
value.  Nothing here is taken from the decoder except its result type.
-/

namespace ForgeIndex

open HeadTail (Part word layout)

/-- A value; arrays, fixed arrays and tuples are all sequences. -/
inductive AbiValue where
  | uint (n : ℕ)
  | int (i : ℤ)
  | address (a : Address)
  | bool (b : Bool)
  | fixedBytes (b : Bytes)
  | bytes (b : Bytes)
  | string (s : String)
  | seq (items : List AbiValue)

/-- The widths of Solidity's integers. -/
def Width (bits : ℕ) : Prop := 8 ≤ bits ∧ bits ≤ 256 ∧ 8 ∣ bits

mutual

def HasType : AbiType → AbiValue → Prop
  | .uint bits, v => Width bits ∧ ∃ n, v = .uint n ∧ n < 2 ^ bits
  | .int bits, v => Width bits ∧ ∃ i, v = .int i ∧ -2 ^ (bits - 1) ≤ i ∧ i < 2 ^ (bits - 1)
  | .address, v => ∃ a, v = .address a
  | .bool, v => ∃ b, v = .bool b
  | .fixedBytes n, v => (1 ≤ n ∧ n ≤ 32) ∧ ∃ b, v = .fixedBytes b ∧ b.length = n
  | .bytes, v => ∃ b, v = .bytes b
  | .string, v => ∃ s, v = .string s
  | .array inner, v => ∃ items, v = .seq items ∧ ∀ x ∈ items, HasType inner x
  | .fixedArray inner len, v =>
    ∃ items, v = .seq items ∧ items.length = len ∧ ∀ x ∈ items, HasType inner x
  | .tuple params, v => ∃ items, v = .seq items ∧ HasTypes params items

def HasTypes : List AbiParam → List AbiValue → Prop
  | [], vs => vs = []
  | .mk _ t _ :: ps, vs => ∃ x xs, vs = x :: xs ∧ HasType t x ∧ HasTypes ps xs

end

/-- Bytes behind their length, filled up with zeros to whole words. -/
def encodeBytes (b : Bytes) : Bytes :=
  word b.length ++ (b ++ List.replicate ((b.length + 31) / 32 * 32 - b.length) 0)

mutual

/-- The Solidity encoding of a value, without the offset that leads to a dynamic one. -/
def encode : AbiType → AbiValue → Bytes
  | .uint _, .uint n => word n
  | .int _, .int i => word (i % 2 ^ 256).toNat
  | .address, .address a => List.replicate 12 0 ++ a.bytes
  | .bool, .bool b => word b.toNat
  | .fixedBytes _, .fixedBytes b => b ++ List.replicate (32 - b.length) 0
  | .bytes, .bytes b => encodeBytes b
  | .string, .string s => encodeBytes (Utf8.encode s.toList)
  | .array inner, .seq items =>
    word items.length ++ layout (items.map fun v => (inner.isDynamic, encode inner v))
  | .fixedArray inner _, .seq items =>
    layout (items.map fun v => (inner.isDynamic, encode inner v))
  | .tuple params, .seq items => layout (encodeParts params items)
  | _, _ => []

def encodeParts : List AbiParam → List AbiValue → List Part
  | .mk _ t _ :: ps, v :: vs => (t.isDynamic, encode t v) :: encodeParts ps vs
  | _, _ => []

end

mutual

/-- The decoded parameter that stands for a value. -/
def decoded : AbiType → AbiValue → DecodedParam
  | .uint bits, .uint n => if bits ≤ 128 then .uint n else .uint256 (toString n)
  | .int bits, .int i => if bits ≤ 128 then .int i else .int256 (toString i)
  | .address, .address a => .address a
  | .bool, .bool b => .bool b
  | .fixedBytes _, .fixedBytes b => .fixedBytes b
  | .bytes, .bytes b => .bytes b
  | .string, .string s => .string s
  | .array inner, .seq items => .array (items.map (decoded inner))
  | .fixedArray inner _, .seq items => .array (items.map (decoded inner))
  | .tuple params, .seq items => .tuple (decodedAll params items)
  | _, _ => .tuple []

def decodedAll : List AbiParam → List AbiValue → List DecodedParam
  | .mk _ t _ :: ps, v :: vs => decoded t v :: decodedAll ps vs
  | _, _ => []

end

mutual

/-- The bytes a type takes in the head. -/
def AbiType.headSize : AbiType → ℕ
  | .fixedArray inner len => if inner.isDynamic then 32 else len * inner.headSize
  | .tuple params => if AbiType.anyDynamic params then 32 else AbiType.headSizes params
  | .uint _ => 32
  | .int _ => 32
  | .address => 32
  | .bool => 32
  | .fixedBytes _ => 32
  | .bytes => 32
  | .string => 32
  | .array _ => 32

def AbiType.headSizes : List AbiParam → ℕ
  | [] => 0
  | .mk _ t _ :: ps => t.headSize + AbiType.headSizes ps

end

theorem AbiType.headSize_of_isDynamic {t : AbiType} (h : t.isDynamic = true) :
    t.headSize = 32 := by
  cases t with
  | fixedArray inner len => exact if_pos h
  | tuple params => exact if_pos h
  | _ => rfl

@[simp] theorem length_encodeBytes_head (b : Bytes) :
    (encodeBytes b).length = 32 + (b.length + 31) / 32 * 32 := by
  rw [encodeBytes, List.length_append, HeadTail.length_word, List.length_append,
    List.length_replicate]
  omega

theorem tails_encodeParts {ps : List AbiParam} {vs : List AbiValue}
    (h : AbiType.anyDynamic ps = false) : HeadTail.tails (encodeParts ps vs) = [] := by
  induction ps generalizing vs with
  | nil => rfl
  | cons p ps ih =>
    obtain ⟨name, t, indexed⟩ := p
    obtain ⟨ht, hps⟩ := Bool.or_eq_false_iff.mp h
    cases vs with
    | nil => rfl
    | cons v vs =>
      show (if t.isDynamic then encode t v else []) ++ HeadTail.tails (encodeParts ps vs) = []
      rw [ht, ih hps]
      rfl

mutual

theorem length_encode : ∀ (t : AbiType) (v : AbiValue), t.isDynamic = false → HasType t v →
    (encode t v).length = t.headSize
  | .uint _, _, _, ⟨_, n, hv, _⟩ => by
    rw [hv]
    exact HeadTail.length_word n
  | .int _, _, _, ⟨_, i, hv, _⟩ => by
    rw [hv]
    exact HeadTail.length_word _
  | .address, _, _, ⟨a, hv⟩ => by
    have ha := a.size
    rw [hv, encode, List.length_append, List.length_replicate, ha]
    rfl
  | .bool, _, _, ⟨b, hv⟩ => by
    rw [hv]
    exact HeadTail.length_word _
  | .fixedBytes n, _, _, ⟨hn, b, hv, hb⟩ => by
    rw [hv, encode, List.length_append, List.length_replicate, AbiType.headSize]
    omega
  | .bytes, _, ht, _ => by cases ht
  | .string, _, ht, _ => by cases ht
  | .array _, _, ht, _ => by cases ht
  | .fixedArray inner len, _, ht, ⟨items, hv, hlen, hitems⟩ => by
    have hinner : inner.isDynamic = false := ht
    rw [hv, encode, HeadTail.length_layout, HeadTail.tails_of_heads, AbiType.headSize, hinner,
      HeadTail.headLength_of_forall (n := inner.headSize), List.length_map, hlen]
    · rfl
    · intro p hp
      obtain ⟨x, hx, rfl⟩ := List.mem_map.mp hp
      exact length_encode inner x hinner (hitems x hx)
    · intro p hp
      obtain ⟨x, -, rfl⟩ := List.mem_map.mp hp
      exact hinner
  | .tuple params, _, ht, ⟨items, hv, hitems⟩ => by
    have hparams : AbiType.anyDynamic params = false := ht
    rw [hv, encode, HeadTail.length_layout, tails_encodeParts hparams, AbiType.headSize, hparams,
      headLength_encodeParts params items hitems]
    rfl

theorem headLength_encodeParts : ∀ (ps : List AbiParam) (vs : List AbiValue), HasTypes ps vs →
    HeadTail.headLength (encodeParts ps vs) = AbiType.headSizes ps
  | [], _, _ => rfl
  | .mk _ t _ :: ps, _, ⟨x, xs, hvs, hx, hxs⟩ => by
    have hrest := headLength_encodeParts ps xs hxs
    rw [hvs, encodeParts, HeadTail.headLength_cons, AbiType.headSizes, hrest]
    cases ht : t.isDynamic with
    | true => rw [if_pos rfl, AbiType.headSize_of_isDynamic ht]
    | false => rw [if_neg (by simp), length_encode t x ht hx]

end

end ForgeIndex
