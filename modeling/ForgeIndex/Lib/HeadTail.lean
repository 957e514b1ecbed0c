import Mathlib.Algebra.BigOperators.Group.List.Basic
import ForgeIndex.Lib.BigEndian

/-!
# Head and tail parts

Byte strings that stand at a place of a longer one, and the layout that puts parts of fixed size
into a head and the others into a tail, with the distance from the start of the head in their
place.
-/

/-- `bs` stands in `data` at position `off`. -/
def At (data : List UInt8) (off : ℕ) (bs : List UInt8) : Prop :=
  ∃ pre post, data = pre ++ (bs ++ post) ∧ pre.length = off

namespace At

variable {data bs cs : List UInt8} {off o : ℕ}

theorem refl (data : List UInt8) : At data 0 data := ⟨[], [], by simp, rfl⟩

theorem le (h : At data off bs) : off + bs.length ≤ data.length := by
  obtain ⟨pre, post, rfl, rfl⟩ := h
  simp only [List.length_append]
  omega

theorem take_drop (h : At data off bs) : (data.drop off).take bs.length = bs := by
  obtain ⟨pre, post, rfl, rfl⟩ := h
  rw [List.drop_left, List.take_left]

theorem append_iff : At data off (bs ++ cs) ↔ At data off bs ∧ At data (off + bs.length) cs := by
  constructor
  · rintro ⟨pre, post, rfl, rfl⟩
    refine ⟨⟨pre, cs ++ post, by simp, rfl⟩, ⟨pre ++ bs, post, by simp, by simp⟩⟩
  · rintro ⟨⟨pre, post, rfl, rfl⟩, ⟨pre', post', heq, hlen⟩⟩
    have hpre : pre' = pre ++ bs := by
      have htake := congrArg (List.take (pre.length + bs.length)) heq
      rw [← hlen, List.take_left, hlen] at htake
      rw [← htake, ← List.append_assoc, ← List.length_append, List.take_left]
    rw [hpre, ← List.append_assoc, List.append_cancel_left_eq] at heq
    exact ⟨pre, post', by rw [heq, List.append_assoc], rfl⟩

theorem trans (h : At data off bs) (h' : At bs o cs) : At data (off + o) cs := by
  obtain ⟨pre, post, rfl, rfl⟩ := h
  obtain ⟨pre', post', rfl, rfl⟩ := h'
  exact ⟨pre ++ pre', post' ++ post, by simp, by simp⟩

end At

namespace HeadTail

/-- A part and whether it goes into the tail. -/
abbrev Part := Bool × List UInt8

def word (n : ℕ) : List UInt8 := BigEndian.bytes 32 n

@[simp] theorem length_word (n : ℕ) : (word n).length = 32 := BigEndian.length_bytes 32 n

def headLength (parts : List Part) : ℕ := (parts.map fun p => if p.1 then 32 else p.2.length).sum

/-- The head, when the first tail part stands at distance `o`. -/
def heads : ℕ → List Part → List UInt8
  | _, [] => []
  | o, (true, bs) :: ps => word o ++ heads (o + bs.length) ps
  | o, (false, bs) :: ps => bs ++ heads o ps

def tails (parts : List Part) : List UInt8 := parts.flatMap fun p => if p.1 then p.2 else []

def layout (parts : List Part) : List UInt8 := heads (headLength parts) parts ++ tails parts

@[simp] theorem headLength_nil : headLength [] = 0 := rfl

@[simp] theorem headLength_cons (p : Part) (ps : List Part) :
    headLength (p :: ps) = (if p.1 then 32 else p.2.length) + headLength ps := rfl

theorem length_heads (o : ℕ) (parts : List Part) : (heads o parts).length = headLength parts := by
  induction parts generalizing o with
  | nil => rfl
  | cons p ps ih =>
    obtain ⟨d, bs⟩ := p
    cases d <;> simp [heads, ih]

theorem length_layout (parts : List Part) :
    (layout parts).length = headLength parts + (tails parts).length := by
  rw [layout, List.length_append, length_heads]

theorem tails_of_heads {parts : List Part} (h : ∀ p ∈ parts, p.1 = false) : tails parts = [] := by
  apply List.flatMap_eq_nil_iff.mpr
  intro p hp
  simp [h p hp]

theorem headLength_of_forall {parts : List Part} {n : ℕ}
    (h : ∀ p ∈ parts, (if p.1 then 32 else p.2.length) = n) :
    headLength parts = parts.length * n := by
  rw [headLength, List.sum_eq_card_nsmul _ n, List.length_map]
  · rfl
  · intro x hx
    obtain ⟨p, hp, rfl⟩ := List.mem_map.mp hx
    exact h p hp

/-- A head at `pos`, whose first tail part stands `o` bytes after `base`. -/
def Laid (data : List UInt8) (base pos o : ℕ) (parts : List Part) : Prop :=
  At data pos (heads o parts) ∧ At data (base + o) (tails parts)

section Laid

variable {data bs : List UInt8} {base pos o : ℕ} {parts : List Part}

theorem laid_layout (h : At data base (layout parts)) :
    Laid data base base (headLength parts) parts := by
  obtain ⟨hheads, htails⟩ := At.append_iff.mp h
  rw [length_heads] at htails
  exact ⟨hheads, htails⟩

theorem Laid.le (h : Laid data base pos o parts) : pos + headLength parts ≤ data.length := by
  have hle := h.1.le
  rw [length_heads] at hle
  exact hle

theorem Laid.tail (h : Laid data base pos o ((true, bs) :: parts)) :
    At data pos (word o) ∧ At data (base + o) bs ∧
      Laid data base (pos + 32) (o + bs.length) parts := by
  obtain ⟨hword, hheads⟩ := At.append_iff.mp h.1
  obtain ⟨hpart, htails⟩ := At.append_iff.mp h.2
  rw [length_word] at hheads
  rw [Nat.add_assoc] at htails
  exact ⟨hword, hpart, hheads, htails⟩

theorem Laid.head (h : Laid data base pos o ((false, bs) :: parts)) :
    At data pos bs ∧ Laid data base (pos + bs.length) o parts := by
  obtain ⟨hpart, hheads⟩ := At.append_iff.mp h.1
  exact ⟨hpart, hheads, h.2⟩

theorem Laid.length_le {d : Bool} (h : Laid data base pos o ((d, bs) :: parts)) :
    bs.length ≤ data.length := by
  cases d with
  | true =>
    have hle := h.tail.2.1.le
    omega
  | false =>
    have hle := h.head.1.le
    omega

theorem Laid.next {d : Bool} (h : Laid data base pos o ((d, bs) :: parts)) :
    ∃ o', Laid data base (pos + if d then 32 else bs.length) o' parts := by
  cases d with
  | true => exact ⟨_, h.tail.2.2⟩
  | false => exact ⟨_, h.head.2⟩

end Laid

end HeadTail
