import Mathlib.Data.List.Basic
import Mathlib.Tactic.Common

/-!
# Reading text with replacement

UTF-8 as `String::from_utf8_lossy` reads it: each longest start of a sequence that cannot be
completed becomes one replacement character.
-/

namespace Utf8

/-- The UTF-8 bytes of a text. -/
def encode (cs : List Char) : List UInt8 := cs.flatMap String.utf8EncodeChar

def replacement : Char := Char.ofNat 0xFFFD

def within (lo hi : ℕ) (b : UInt8) : Bool := decide (lo ≤ b.toNat ∧ b.toNat ≤ hi)

/-- A byte that continues a sequence. -/
def continues (b : UInt8) : Bool := within 0x80 0xBF b

/-- The second bytes that the first byte of a three-byte sequence allows. -/
def second3 (b₀ b₁ : UInt8) : Bool :=
  if b₀.toNat = 0xE0 then within 0xA0 0xBF b₁
  else if b₀.toNat = 0xED then within 0x80 0x9F b₁
  else continues b₁

/-- The second bytes that the first byte of a four-byte sequence allows. -/
def second4 (b₀ b₁ : UInt8) : Bool :=
  if b₀.toNat = 0xF0 then within 0x90 0xBF b₁
  else if b₀.toNat = 0xF4 then within 0x80 0x8F b₁
  else continues b₁

def char2 (b₀ b₁ : UInt8) : Char := Char.ofNat ((b₀.toNat - 0xC0) * 64 + (b₁.toNat - 0x80))

def char3 (b₀ b₁ b₂ : UInt8) : Char :=
  Char.ofNat ((b₀.toNat - 0xE0) * 4096 + (b₁.toNat - 0x80) * 64 + (b₂.toNat - 0x80))

def char4 (b₀ b₁ b₂ b₃ : UInt8) : Char :=
  Char.ofNat ((b₀.toNat - 0xF0) * 262144 + (b₁.toNat - 0x80) * 4096 + (b₂.toNat - 0x80) * 64 +
    (b₃.toNat - 0x80))

def decodeLossy : List UInt8 → List Char
  | [] => []
  | b₀ :: t =>
    if b₀.toNat < 0x80 then Char.ofNat b₀.toNat :: decodeLossy t
    else if within 0xC2 0xDF b₀ then
      match t with
      | b₁ :: t₁ =>
        if continues b₁ then char2 b₀ b₁ :: decodeLossy t₁ else replacement :: decodeLossy (b₁ :: t₁)
      | [] => [replacement]
    else if within 0xE0 0xEF b₀ then
      match t with
      | b₁ :: t₁ =>
        if second3 b₀ b₁ then
          match t₁ with
          | b₂ :: t₂ =>
            if continues b₂ then char3 b₀ b₁ b₂ :: decodeLossy t₂
            else replacement :: decodeLossy (b₂ :: t₂)
          | [] => [replacement]
        else replacement :: decodeLossy (b₁ :: t₁)
      | [] => [replacement]
    else if within 0xF0 0xF4 b₀ then
      match t with
      | b₁ :: t₁ =>
        if second4 b₀ b₁ then
          match t₁ with
          | b₂ :: t₂ =>
            if continues b₂ then
              match t₂ with
              | b₃ :: t₃ =>
                if continues b₃ then char4 b₀ b₁ b₂ b₃ :: decodeLossy t₃
                else replacement :: decodeLossy (b₃ :: t₃)
              | [] => [replacement]
            else replacement :: decodeLossy (b₂ :: t₂)
          | [] => [replacement]
        else replacement :: decodeLossy (b₁ :: t₁)
      | [] => [replacement]
    else replacement :: decodeLossy t

theorem within_iff {lo hi : ℕ} {b : UInt8} : within lo hi b = true ↔ lo ≤ b.toNat ∧ b.toNat ≤ hi :=
  decide_eq_true_iff

theorem not_within {lo hi : ℕ} {b : UInt8} (h : b.toNat < lo ∨ hi < b.toNat) :
    ¬within lo hi b = true := by
  rw [within_iff]
  omega

theorem decodeLossy_one {b₀ : UInt8} (h₀ : b₀.toNat < 0x80) (t : List UInt8) :
    decodeLossy (b₀ :: t) = Char.ofNat b₀.toNat :: decodeLossy t := by
  rw [decodeLossy.eq_def]
  dsimp only
  rw [if_pos h₀]

theorem decodeLossy_two {b₀ b₁ : UInt8} (h₀ : within 0xC2 0xDF b₀ = true)
    (h₁ : continues b₁ = true) (t : List UInt8) :
    decodeLossy (b₀ :: b₁ :: t) = char2 b₀ b₁ :: decodeLossy t := by
  have hlo : ¬b₀.toNat < 0x80 := by
    rw [within_iff] at h₀
    omega
  rw [decodeLossy.eq_def]
  dsimp only
  rw [if_neg hlo, if_pos h₀, if_pos h₁]

theorem decodeLossy_three {b₀ b₁ b₂ : UInt8} (h₀ : within 0xE0 0xEF b₀ = true)
    (h₁ : second3 b₀ b₁ = true) (h₂ : continues b₂ = true) (t : List UInt8) :
    decodeLossy (b₀ :: b₁ :: b₂ :: t) = char3 b₀ b₁ b₂ :: decodeLossy t := by
  have hb := within_iff.mp h₀
  rw [decodeLossy.eq_def]
  dsimp only
  rw [if_neg (by omega), if_neg (not_within (by omega)), if_pos h₀, if_pos h₁, if_pos h₂]

theorem decodeLossy_four {b₀ b₁ b₂ b₃ : UInt8} (h₀ : within 0xF0 0xF4 b₀ = true)
    (h₁ : second4 b₀ b₁ = true) (h₂ : continues b₂ = true) (h₃ : continues b₃ = true)
    (t : List UInt8) :
    decodeLossy (b₀ :: b₁ :: b₂ :: b₃ :: t) = char4 b₀ b₁ b₂ b₃ :: decodeLossy t := by
  have hb := within_iff.mp h₀
  rw [decodeLossy.eq_def]
  dsimp only
  rw [if_neg (by omega), if_neg (not_within (by omega)), if_neg (not_within (by omega)), if_pos h₀,
    if_pos h₁, if_pos h₂, if_pos h₃]

theorem toNat_ofNat_of_lt {n : ℕ} (h : n < 256) : (UInt8.ofNat n).toNat = n := by
  rw [UInt8.toNat_ofNat', Nat.mod_eq_of_lt h]

theorem decodeLossy_utf8EncodeChar (c : Char) (t : List UInt8) :
    decodeLossy (String.utf8EncodeChar c ++ t) = c :: decodeLossy t := by
  have hchar : Char.ofNat c.val.toNat = c := Char.ofNat_toNat c
  have hvalid : c.val.toNat < 0xD800 ∨ (0xDFFF < c.val.toNat ∧ c.val.toNat < 0x110000) := c.valid
  unfold String.utf8EncodeChar
  dsimp only
  generalize c.val.toNat = v at hchar hvalid ⊢
  subst hchar
  split_ifs with h₁ h₂ h₃
  · rw [List.singleton_append, decodeLossy_one, toNat_ofNat_of_lt (by omega)]
    rw [toNat_ofNat_of_lt (by omega)]
    omega
  · have hb₀ : (UInt8.ofNat (v / 64 % 0x20 + 0xc0)).toNat = v / 64 + 0xC0 := by
      rw [toNat_ofNat_of_lt (by omega)]
      omega
    have hb₁ : (UInt8.ofNat (v % 0x40 + 0x80)).toNat = v % 64 + 0x80 :=
      toNat_ofNat_of_lt (by omega)
    rw [List.cons_append, List.cons_append, List.nil_append, decodeLossy_two]
    · have hv : (v / 64 + 0xC0 - 0xC0) * 64 + (v % 64 + 0x80 - 0x80) = v := by omega
      unfold char2
      rw [hb₀, hb₁, hv]
    · rw [within_iff, hb₀]
      omega
    · unfold continues
      rw [within_iff, hb₁]
      omega
  · have hb₀ : (UInt8.ofNat (v / 4096 % 0x10 + 0xe0)).toNat = v / 4096 + 0xE0 := by
      rw [toNat_ofNat_of_lt (by omega)]
      omega
    have hb₁ : (UInt8.ofNat (v / 64 % 0x40 + 0x80)).toNat = v / 64 % 64 + 0x80 :=
      toNat_ofNat_of_lt (by omega)
    have hb₂ : (UInt8.ofNat (v % 0x40 + 0x80)).toNat = v % 64 + 0x80 :=
      toNat_ofNat_of_lt (by omega)
    rw [List.cons_append, List.cons_append, List.cons_append, List.nil_append, decodeLossy_three]
    · have hv : (v / 4096 + 0xE0 - 0xE0) * 4096 + (v / 64 % 64 + 0x80 - 0x80) * 64 +
          (v % 64 + 0x80 - 0x80) = v := by omega
      unfold char3
      rw [hb₀, hb₁, hb₂, hv]
    · rw [within_iff, hb₀]
      omega
    · unfold second3 continues
      rw [hb₀]
      split_ifs <;> (rw [within_iff, hb₁]; omega)
    · unfold continues
      rw [within_iff, hb₂]
      omega
  · have hb₀ : (UInt8.ofNat (v / 262144 % 0x08 + 0xf0)).toNat = v / 262144 + 0xF0 := by
      rw [toNat_ofNat_of_lt (by omega)]
      omega
    have hb₁ : (UInt8.ofNat (v / 4096 % 0x40 + 0x80)).toNat = v / 4096 % 64 + 0x80 :=
      toNat_ofNat_of_lt (by omega)
    have hb₂ : (UInt8.ofNat (v / 64 % 0x40 + 0x80)).toNat = v / 64 % 64 + 0x80 :=
      toNat_ofNat_of_lt (by omega)
    have hb₃ : (UInt8.ofNat (v % 0x40 + 0x80)).toNat = v % 64 + 0x80 :=
      toNat_ofNat_of_lt (by omega)
    rw [List.cons_append, List.cons_append, List.cons_append, List.cons_append, List.nil_append,
      decodeLossy_four]
    · have hv : (v / 262144 + 0xF0 - 0xF0) * 262144 + (v / 4096 % 64 + 0x80 - 0x80) * 4096 +
          (v / 64 % 64 + 0x80 - 0x80) * 64 + (v % 64 + 0x80 - 0x80) = v := by omega
      unfold char4
      rw [hb₀, hb₁, hb₂, hb₃, hv]
    · rw [within_iff, hb₀]
      omega
    · unfold second4 continues
      rw [hb₀]
      split_ifs <;> (rw [within_iff, hb₁]; omega)
    · unfold continues
      rw [within_iff, hb₂]
      omega
    · unfold continues
      rw [within_iff, hb₃]
      omega

theorem decodeLossy_encode (cs : List Char) : decodeLossy (encode cs) = cs := by
  induction cs with
  | nil => rfl
  | cons c cs ih =>
    show decodeLossy (String.utf8EncodeChar c ++ encode cs) = c :: cs
    rw [decodeLossy_utf8EncodeChar, ih]

example : decodeLossy [0xE2, 0x82, 0x28, 0xC0, 0x41] = [replacement, '(', replacement, 'A'] := by
  decide

theorem encode_injective : Function.Injective encode := by
  intro cs ds h
  have hread := congrArg decodeLossy h
  rwa [decodeLossy_encode, decodeLossy_encode] at hread

theorem length_encode_of_ascii {cs : List Char} (h : ∀ c ∈ cs, c.toNat < 128) :
    (encode cs).length = cs.length := by
  induction cs with
  | nil => rfl
  | cons c cs ih =>
    have hone : (String.utf8EncodeChar c).length = 1 := by
      rw [String.length_utf8EncodeChar, Char.utf8Size_eq_one_iff]
      exact UInt32.le_iff_toNat_le.mpr (Nat.le_of_lt_succ (h c List.mem_cons_self))
    have hrest := ih fun d hd => h d (List.mem_cons_of_mem c hd)
    unfold encode at hrest ⊢
    rw [List.flatMap_cons, List.length_append, hone, hrest, List.length_cons]
    omega

end Utf8
