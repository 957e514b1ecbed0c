import Mathlib.Data.List.Basic
import Mathlib.Tactic.Ring

/-!
# Big-endian numbers

Numbers as byte strings of a fixed width, most significant byte first.
-/

namespace BigEndian

def value (bs : List UInt8) : ℕ := bs.foldl (fun n b => 256 * n + b.toNat) 0

/-- The low `k` bytes of a number. -/
def bytes : ℕ → ℕ → List UInt8
  | 0, _ => []
  | k + 1, n => UInt8.ofNat (n / 256 ^ k) :: bytes k n

@[simp] theorem length_bytes (k n : ℕ) : (bytes k n).length = k := by
  induction k with
  | zero => rfl
  | succ k ih => rw [bytes, List.length_cons, ih]

theorem foldl_value (bs : List UInt8) (n : ℕ) :
    bs.foldl (fun n b => 256 * n + b.toNat) n = n * 256 ^ bs.length + value bs := by
  induction bs generalizing n with
  | nil => simp [value]
  | cons b bs ih =>
    have hzero : value (b :: bs) = b.toNat * 256 ^ bs.length + value bs := by
      show bs.foldl _ (256 * 0 + b.toNat) = _
      rw [Nat.mul_zero, Nat.zero_add, ih]
    rw [hzero, List.foldl_cons, ih, List.length_cons, pow_succ]
    ring

theorem value_cons (b : UInt8) (bs : List UInt8) :
    value (b :: bs) = b.toNat * 256 ^ bs.length + value bs := by
  show bs.foldl _ (256 * 0 + b.toNat) = _
  rw [Nat.mul_zero, Nat.zero_add, foldl_value]

theorem value_append (bs cs : List UInt8) :
    value (bs ++ cs) = value bs * 256 ^ cs.length + value cs := by
  rw [value, List.foldl_append, foldl_value]
  rfl

theorem value_eq_zero_iff (bs : List UInt8) : value bs = 0 ↔ ∀ b ∈ bs, b = 0 := by
  induction bs with
  | nil => simp [value]
  | cons b bs ih =>
    have hpos : 0 < 256 ^ bs.length := Nat.pow_pos (by decide)
    have hb : b.toNat = 0 ↔ b = 0 := by
      rw [← UInt8.toNat_inj]
      rfl
    rw [value_cons, Nat.add_eq_zero_iff, Nat.mul_eq_zero, or_iff_left (by omega), ih, hb,
      List.forall_mem_cons]

theorem value_lt (bs : List UInt8) : value bs < 256 ^ bs.length := by
  induction bs with
  | nil => simp [value]
  | cons b bs ih =>
    have hb := b.toNat_lt
    rw [value_cons, List.length_cons, pow_succ]
    calc b.toNat * 256 ^ bs.length + value bs
        < b.toNat * 256 ^ bs.length + 256 ^ bs.length := by omega
      _ = (b.toNat + 1) * 256 ^ bs.length := by ring
      _ ≤ 256 * 256 ^ bs.length := Nat.mul_le_mul_right _ (by omega)
      _ = 256 ^ bs.length * 256 := by ring

theorem value_bytes (k n : ℕ) : value (bytes k n) = n % 256 ^ k := by
  induction k with
  | zero => simp [bytes, value, Nat.mod_one]
  | succ k ih =>
    have hsplit : n % 256 ^ (k + 1) = n % 256 ^ k + 256 ^ k * (n / 256 ^ k % 256) := by
      rw [pow_succ, Nat.mod_mul]
    rw [bytes, value_cons, length_bytes, ih, UInt8.toNat_ofNat', hsplit]
    ring

theorem value_bytes_of_lt {k n : ℕ} (h : n < 256 ^ k) : value (bytes k n) = n := by
  rw [value_bytes, Nat.mod_eq_of_lt h]

theorem drop_bytes (j k n : ℕ) : (bytes (j + k) n).drop j = bytes k n := by
  induction j with
  | zero => rw [Nat.zero_add, List.drop_zero]
  | succ j ih => rw [Nat.succ_add, bytes, List.drop_succ_cons, ih]

theorem take_bytes_of_lt (j : ℕ) {k n : ℕ} (h : n < 256 ^ k) :
    (bytes (j + k) n).take j = List.replicate j 0 := by
  induction j with
  | zero => rw [List.take_zero, List.replicate_zero]
  | succ j ih =>
    have hzero : n / 256 ^ (j + k) = 0 := by
      apply Nat.div_eq_of_lt
      exact lt_of_lt_of_le h (Nat.pow_le_pow_right (by decide) (by omega))
    rw [Nat.succ_add, bytes, List.take_succ_cons, ih, hzero, List.replicate_succ]
    rfl

end BigEndian
