import Mathlib.Data.List.Basic
import Mathlib.Tactic.IntervalCases

/-!
# Hexadecimal text

Lower-case encoding of bytes and the decoder that accepts both cases.
-/

namespace Hex

def digit (n : ℕ) : Char := if n < 10 then Char.ofNat (48 + n) else Char.ofNat (87 + n)

def encode (bs : List UInt8) : List Char :=
  bs.flatMap fun b => [digit (b.toNat / 16), digit (b.toNat % 16)]

def value (c : Char) : Option ℕ :=
  let n := c.toNat
  if 48 ≤ n ∧ n ≤ 57 then some (n - 48)
  else if 97 ≤ n ∧ n ≤ 102 then some (n - 87)
  else if 65 ≤ n ∧ n ≤ 70 then some (n - 55)
  else none

/-- Two digits make a byte; an odd count or a foreign character is refused. -/
def decode : List Char → Option (List UInt8)
  | [] => some []
  | [_] => none
  | a :: b :: cs => do
    let hi ← value a
    let lo ← value b
    let rest ← decode cs
    some (UInt8.ofNat (16 * hi + lo) :: rest)

theorem length_encode (bs : List UInt8) : (encode bs).length = 2 * bs.length := by
  induction bs with
  | nil => rfl
  | cons b bs ih =>
    have hcons : encode (b :: bs) =
        digit (b.toNat / 16) :: digit (b.toNat % 16) :: encode bs := rfl
    rw [hcons, List.length_cons, List.length_cons, List.length_cons, ih]
    omega

theorem value_digit {n : ℕ} (h : n < 16) : value (digit n) = some n := by
  interval_cases n <;> rfl

theorem decode_encode (bs : List UInt8) : decode (encode bs) = some bs := by
  induction bs with
  | nil => rfl
  | cons b bs ih =>
    have hb := b.toNat_lt
    have hbyte : UInt8.ofNat (16 * (b.toNat / 16) + b.toNat % 16) = b := by
      rw [Nat.div_add_mod, UInt8.ofNat_toNat]
    show decode (digit (b.toNat / 16) :: digit (b.toNat % 16) :: encode bs) = some (b :: bs)
    unfold decode
    rw [value_digit (by omega), value_digit (by omega), ih]
    show some (UInt8.ofNat (16 * (b.toNat / 16) + b.toNat % 16) :: bs) = some (b :: bs)
    rw [hbyte]

/-- `char::to_ascii_uppercase`. -/
def upper (c : Char) : Char := if 97 ≤ c.toNat ∧ c.toNat ≤ 122 then Char.ofNat (c.toNat - 32) else c

theorem value_upper (c : Char) : value (upper c) = value c := by
  unfold upper
  split_ifs with h
  · have hvalid : (c.toNat - 32).isValidChar := Or.inl (by omega)
    have hnat : (Char.ofNat (c.toNat - 32)).toNat = c.toNat - 32 := by
      unfold Char.ofNat
      rw [dif_pos hvalid]
      rfl
    unfold value
    rw [hnat]
    generalize c.toNat = n at h
    dsimp only
    by_cases hf : n ≤ 102
    · rw [if_neg (by omega), if_neg (by omega), if_pos (by omega), if_neg (by omega),
        if_pos (by omega)]
      congr 1
    · rw [if_neg (by omega), if_neg (by omega), if_neg (by omega), if_neg (by omega),
        if_neg (by omega), if_neg (by omega)]
  · rfl

theorem decode_congr {cs cs' : List Char} (h : List.Forall₂ (fun c c' => value c = value c') cs cs') :
    decode cs = decode cs' := by
  match cs, cs', h with
  | [], [], .nil => rfl
  | [_], [_], .cons _ .nil => rfl
  | a :: b :: cs, a' :: b' :: cs', .cons ha (.cons hb hcs) =>
    unfold decode
    rw [ha, hb, decode_congr hcs]

end Hex
