import Mathlib.Data.List.Forall2
import ForgeIndex.Lib.Hex

/-!
# Chain data

`forge-index-core/src/types`: addresses, hashes and logs.
-/

namespace ForgeIndex

/-- A byte string. -/
abbrev Bytes := List UInt8

/-- `Address([u8; 20])`. -/
structure Address where
  bytes : Bytes
  size : bytes.length = 20
  deriving DecidableEq

/-- `Hash32([u8; 32])`. -/
structure Hash32 where
  bytes : Bytes
  size : bytes.length = 32
  deriving DecidableEq

/-- `s.strip_prefix("0x").unwrap_or(s)`, then the digits of exactly `n` bytes.  The source counts
the bytes of the text; where these are not its characters, the text is no hex. -/
def bytesOfHex (n : ℕ) (s : String) : Option Bytes :=
  let cs := match s.toList with
    | '0' :: 'x' :: cs => cs
    | cs => cs
  if cs.length = 2 * n then Hex.decode cs else none

theorem length_of_decode {cs : List Char} {bs : Bytes} (h : Hex.decode cs = some bs) :
    cs.length = 2 * bs.length := by
  induction cs using Hex.decode.induct generalizing bs with
  | case1 =>
    cases h
    rfl
  | case2 c => simp [Hex.decode] at h
  | case3 a b cs ih =>
    simp only [Hex.decode, Option.bind_eq_bind, Option.bind_eq_some_iff, Option.some.injEq] at h
    obtain ⟨hi, -, lo, -, rest, hrest, rfl⟩ := h
    simp only [List.length_cons, ih hrest]
    omega

theorem length_of_bytesOfHex {n : ℕ} {s : String} {bs : Bytes} (h : bytesOfHex n s = some bs) :
    bs.length = n := by
  unfold bytesOfHex at h
  dsimp only at h
  split_ifs at h with hlen
  have := length_of_decode h
  omega

theorem bytesOfHex_of_values {bs : Bytes} {cs : List Char}
    (h : List.Forall₂ (fun c c' => Hex.value c = Hex.value c') cs (Hex.encode bs)) :
    bytesOfHex bs.length (String.ofList ('0' :: 'x' :: cs)) = some bs := by
  unfold bytesOfHex
  simp only [String.toList_ofList]
  rw [if_pos (by rw [h.length_eq, Hex.length_encode]), Hex.decode_congr h, Hex.decode_encode]

namespace Hash32

def fromHex (s : String) : Option Hash32 :=
  match h : bytesOfHex 32 s with
  | some bs => some ⟨bs, length_of_bytesOfHex h⟩
  | none => none

def display (x : Hash32) : String := String.ofList ('0' :: 'x' :: Hex.encode x.bytes)

theorem fromHex_display (x : Hash32) : fromHex x.display = some x := by
  have h : bytesOfHex 32 x.display = some x.bytes := by
    have hread := bytesOfHex_of_values (List.forall₂_same.mpr fun c (_ : c ∈ Hex.encode x.bytes) =>
      (rfl : Hex.value c = Hex.value c))
    rw [x.size] at hread
    exact hread
  unfold fromHex
  split
  · rename_i bs hbs
    rw [h] at hbs
    cases hbs
    rfl
  · rename_i hnone
    rw [h] at hnone
    cases hnone

theorem length_repeated (b : UInt8) : (List.replicate 32 b).length = 32 := List.length_replicate

/-- `Hash32([0u8; 32])`. -/
def zero : Hash32 := ⟨List.replicate 32 0, rfl⟩

end Hash32

namespace Address

def fromHex (s : String) : Option Address :=
  match h : bytesOfHex 20 s with
  | some bs => some ⟨bs, length_of_bytesOfHex h⟩
  | none => none

/-- `Address::checksum_hex`: a letter is raised where the digit of the hash at its place is 8 or
more. -/
def checksumHex (keccak256 : Bytes → Hash32) (a : Address) : String :=
  let hexLower := Hex.encode a.bytes
  let hashHex := Hex.encode (keccak256 (hexLower.map fun c => UInt8.ofNat c.toNat)).bytes
  String.ofList ('0' :: 'x' :: hexLower.zipIdx.map fun (p : Char × ℕ) =>
    if p.1.isAlpha ∧ 8 ≤ ((hashHex[p.2]?.bind Hex.value).getD 0) then Hex.upper p.1 else p.1)

theorem fromHex_checksumHex (keccak256 : Bytes → Hash32) (a : Address) :
    fromHex (a.checksumHex keccak256) = some a := by
  have h : bytesOfHex 20 (a.checksumHex keccak256) = some a.bytes := by
    unfold checksumHex
    dsimp only
    have hsize := a.size
    rw [← hsize]
    apply bytesOfHex_of_values
    rw [List.forall₂_map_left_iff]
    have hfst : Hex.encode a.bytes = (Hex.encode a.bytes).zipIdx.map Prod.fst := by simp
    rw [hfst, List.forall₂_map_right_iff, ← hfst]
    apply List.forall₂_same.mpr
    intro p _
    split_ifs
    · exact Hex.value_upper p.1
    · rfl
  unfold fromHex
  split
  · rename_i bs hbs
    rw [h] at hbs
    cases hbs
    rfl
  · rename_i hnone
    rw [h] at hnone
    cases hnone

/-- `Address([0u8; 20])`. -/
def zero : Address := ⟨List.replicate 20 0, rfl⟩

end Address

structure Log where
  id : String
  chainId : UInt64
  address : Address
  topics : List Hash32
  data : Bytes
  blockNumber : UInt64
  blockHash : Hash32
  transactionHash : Hash32
  logIndex : UInt32
  transactionIndex : UInt32
  removed : Bool
  deriving DecidableEq

structure Block where
  chainId : UInt64
  number : UInt64
  hash : Hash32
  parentHash : Hash32
  timestamp : UInt64
  gasLimit : UInt64
  gasUsed : UInt64
  baseFeePerGas : Option (BitVec 128)
  miner : Address
  deriving DecidableEq

end ForgeIndex
