import Mathlib.Tactic.Common

/-!
# Letter case in ASCII

`to_ascii_uppercase` and `to_ascii_lowercase` of characters.
-/

namespace AsciiCase

theorem toLower_of_not_upper {c : Char} (h : ¬(65 ≤ c.toNat ∧ c.toNat ≤ 90)) : c.toLower = c := by
  unfold Char.toLower
  rw [dif_neg]
  exact h

theorem toNat_toLower {c : Char} (h : 65 ≤ c.toNat ∧ c.toNat ≤ 90) :
    c.toLower.toNat = c.toNat + 32 := by
  have hval : c.val ≥ 'A'.val ∧ c.val ≤ 'Z'.val := h
  unfold Char.toLower
  rw [dif_pos hval]
  show (c.val + 32).toNat = c.val.toNat + 32
  have hnat : c.val.toNat = c.toNat := rfl
  rw [UInt32.toNat_add, hnat]
  apply Nat.mod_eq_of_lt
  simp only [UInt32.reduceToNat]
  omega

theorem toUpper_of_not_lower {c : Char} (h : ¬(97 ≤ c.toNat ∧ c.toNat ≤ 122)) : c.toUpper = c := by
  unfold Char.toUpper
  rw [dif_neg]
  exact h

theorem of_forall_lt {P : Char → Prop} (hall : ∀ n < 128, P (Char.ofNat n)) {c : Char}
    (hc : c.toNat < 128) : P c := by
  have hchar := hall c.toNat hc
  rwa [Char.ofNat_toNat] at hchar

theorem toUpper_lt {c : Char} (h : c.toNat < 128) : c.toUpper.toNat < 128 :=
  of_forall_lt (P := fun c => c.toUpper.toNat < 128) (by decide +kernel) h

theorem toUpper_toUpper (c : Char) : c.toUpper.toUpper = c.toUpper := by
  by_cases hc : c.toNat < 128
  · exact of_forall_lt (P := fun c => c.toUpper.toUpper = c.toUpper) (by decide +kernel) hc
  · have hself : c.toUpper = c := toUpper_of_not_lower (by omega)
    rw [hself, hself]

theorem toUpper_toLower (c : Char) : c.toLower.toUpper = c.toUpper := by
  by_cases hc : c.toNat < 128
  · exact of_forall_lt (P := fun c => c.toLower.toUpper = c.toUpper) (by decide +kernel) hc
  · rw [toLower_of_not_upper (by omega)]

end AsciiCase
