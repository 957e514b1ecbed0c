import Mathlib.Data.Nat.Digits.Defs
import ForgeIndex.Lib.Delimited

/-!
# Reading Rust

The part of the grammar of Rust that generated data types need: identifiers, types, and the fields
of a `struct`.
-/

namespace RustText

inductive RustType where
  | name (w : List Char)
  | vec (t : RustType)
  | array (t : RustType) (n : ℕ)
  | tuple (ts : List RustType)

/-- Types between parentheses: a single one without a comma is no tuple. -/
def grouped : List RustType → RustType
  | [t] => t
  | ts => .tuple ts

def identStart (c : Char) : Bool := c.isAlpha || c == '_'

def identCont (c : Char) : Bool := c.isAlphanum || c == '_'

/-- Letters, digits and underscores, and no digit at the front. -/
def IsWord (w : List Char) : Prop :=
  (∃ c ∈ w.head?, identStart c = true) ∧ ∀ c ∈ w, identCont c = true

/-- The words that are no identifiers, and the underscore. -/
def keywords : List (List Char) :=
  ["as", "break", "const", "continue", "crate", "else", "enum", "extern", "false", "fn", "for", "if",
    "impl", "in", "let", "loop", "match", "mod", "move", "mut", "pub", "ref", "return", "self", "Self",
    "static", "struct", "super", "trait", "true", "type", "unsafe", "use", "where", "while", "async",
    "await", "dyn", "abstract", "become", "box", "do", "final", "macro", "override", "priv", "try",
    "typeof", "unsized", "virtual", "yield", "_"].map String.toList

/-- The words that are no raw identifiers either. -/
def neverNames : List (List Char) := ["crate", "self", "Self", "super", "_"].map String.toList

/-- What is behind the given text. -/
def expect : List Char → List Char → Option (List Char)
  | [], s => some s
  | _ :: _, [] => none
  | c :: lit, d :: s => if c = d then expect lit s else none

/-- A word that is none of those. -/
def readWord (forbidden : List (List Char)) (s : List Char) : Option (List Char × List Char) :=
  let w := s.takeWhile identCont
  if w.head?.any identStart && !forbidden.contains w then some (w, s.dropWhile identCont) else none

/-- An identifier, raw or not; its name is without the mark. -/
def readIdent (s : List Char) : Option (List Char × List Char) :=
  match expect ['r', '#'] s with
  | some s => readWord neverNames s
  | none => readWord keywords s

def readNumber (s : List Char) : Option (ℕ × List Char) :=
  let ds := s.takeWhile Char.isDigit
  if ds = [] then none else some (Nat.ofDigitChars 10 ds 0, s.dropWhile Char.isDigit)

mutual

/-- A type at the front of a text; the number bounds the recursion. -/
def readType : ℕ → List Char → Option (RustType × List Char)
  | 0, _ => none
  | _ + 1, [] => none
  | k + 1, c :: s =>
    if c = '[' then
      (readType k s).bind fun t => (expect [';', ' '] t.2).bind fun s =>
        (readNumber s).bind fun n => (expect [']'] n.2).map fun s => (.array t.1 n.1, s)
    else if c = '(' then
      match expect [')'] s with
      | some s => some (.tuple [], s)
      | none => (readTypes k s).bind fun ts => (expect [')'] ts.2).map fun s => (grouped ts.1, s)
    else
      (readWord keywords (c :: s)).bind fun w =>
        match expect ['<'] w.2 with
        | none => some (.name w.1, w.2)
        | some s =>
          if w.1 = ['V', 'e', 'c'] then
            (readType k s).bind fun t => (expect ['>'] t.2).map fun s => (.vec t.1, s)
          else none

/-- Types with commas between them. -/
def readTypes : ℕ → List Char → Option (List RustType × List Char)
  | 0, _ => none
  | k + 1, s =>
    (readType k s).bind fun t =>
      match expect [',', ' '] t.2 with
      | none => some ([t.1], t.2)
      | some s => (readTypes k s).map fun ts => (t.1 :: ts.1, ts.2)

end

/-- The public fields of a `struct`, one on each line. -/
def readFields : ℕ → List Char → Option (List (List Char × RustType) × List Char)
  | 0, _ => none
  | k + 1, s =>
    match expect "    pub ".toList s with
    | none => some ([], s)
    | some s =>
      (readIdent s).bind fun f => (expect [':', ' '] f.2).bind fun s =>
        (readType s.length s).bind fun t => (expect [',', '\n'] t.2).bind fun s =>
          (readFields k s).map fun fs => ((f.1, t.1) :: fs.1, fs.2)

theorem isWord_of_all {w : List Char} (h : (w.head?.any identStart && w.all identCont) = true) :
    IsWord w := by
  rw [Bool.and_eq_true, Option.any_eq_true, List.all_eq_true] at h
  exact h

theorem IsWord.not_mem {w : List Char} (h : IsWord w) {c : Char} (hc : identCont c = false) :
    c ∉ w := by
  intro hmem
  rw [h.2 c hmem] at hc
  cases hc

theorem expect_append (lit r : List Char) : expect lit (lit ++ r) = some r := by
  induction lit with
  | nil => cases r <;> rfl
  | cons c lit ih => rw [List.cons_append, expect, if_pos rfl, ih]

theorem forall_head_cons {P : Char → Prop} {c : Char} (h : P c) (r : List Char) :
    ∀ d ∈ (c :: r).head?, P d := by
  intro d hd
  rw [← Option.some.inj hd]
  exact h

/-- A word ends ahead of the text. -/
def WordEnds (r : List Char) : Prop := ∀ c ∈ r.head?, identCont c = false

theorem wordEnds_of {c : Char} (h : identCont c = false) (r : List Char) : WordEnds (c :: r) :=
  forall_head_cons h r

theorem readWord_append (forbidden : List (List Char)) {w r : List Char} (hw : IsWord w)
    (hrest : WordEnds r) :
    readWord forbidden (w ++ r) = if w ∈ forbidden then none else some (w, r) := by
  have hword := Delimited.takeWhile_word hw.2 hrest
  have hstart : w.head?.any identStart = true := by
    obtain ⟨c, hc, hstart⟩ := hw.1
    rw [Option.mem_def.mp hc]
    exact hstart
  unfold readWord
  rw [hword.1, hword.2]
  dsimp only
  rw [hstart]
  by_cases hmem : w ∈ forbidden
  · rw [List.contains_iff_mem.mpr hmem, if_pos hmem]
    rfl
  · have hcontains : forbidden.contains w = false := by
      rw [← Bool.not_eq_true, List.contains_iff_mem]
      exact hmem
    rw [hcontains, if_neg hmem]
    rfl

theorem readNumber_append (n : ℕ) {r : List Char} (hrest : ∀ c ∈ r.head?, c.isDigit = false) :
    readNumber ((toString n).toList ++ r) = some (n, r) := by
  have hlist : (toString n).toList = Nat.toDigits 10 n := Nat.toList_repr
  have hdigits : ∀ c ∈ Nat.toDigits 10 n, c.isDigit = true :=
    fun c hc => Nat.isDigit_of_mem_toDigits (by omega) (by omega) hc
  have hword := Delimited.takeWhile_word hdigits hrest
  rw [hlist, readNumber, hword.1, hword.2, if_neg Nat.toDigits_ne_nil,
    Nat.ofDigitChars_toDigits (by omega) (by omega)]

/-- A type ends ahead of the text. -/
def TypeEnds (r : List Char) : Prop := ∀ c ∈ r.head?, identCont c = false ∧ c ≠ '<'

theorem typeEnds_of {c : Char} (h : identCont c = false ∧ c ≠ '<') (r : List Char) :
    TypeEnds (c :: r) := forall_head_cons h r

theorem TypeEnds.word {r : List Char} (h : TypeEnds r) : WordEnds r :=
  fun c hc => (h c hc).1

theorem expect_eq_none {c : Char} {lit r : List Char} (h : ∀ d ∈ r.head?, d ≠ c) :
    expect (c :: lit) r = none := by
  cases r with
  | nil => rfl
  | cons d r =>
    rw [expect, if_neg]
    exact fun hc => h d rfl hc.symm

/-- The name of a type is no bracket, so that the last branch of `readType` reads it. -/
theorem readType_name {w r : List Char} (hw : IsWord w) (hkeyword : w ∉ keywords)
    (hrest : TypeEnds r) (k : ℕ) : readType (k + 1) (w ++ r) = some (.name w, r) := by
  have hread := readWord_append keywords hw hrest.word
  obtain ⟨c, hc, hstart⟩ := hw.1
  obtain ⟨v, rfl⟩ : ∃ v, w = c :: v := List.head?_eq_some_iff.mp hc
  have hopen : c ≠ '[' ∧ c ≠ '(' := by
    constructor <;> rintro rfl <;> exact absurd hstart (by decide)
  rw [if_neg hkeyword, List.cons_append] at hread
  rw [List.cons_append, readType, if_neg hopen.1, if_neg hopen.2, hread, Option.bind_some,
    expect_eq_none fun d hd => (hrest d hd).2]

theorem readType_vec {s r : List Char} {k : ℕ} {t : RustType}
    (h : readType k s = some (t, '>' :: r)) :
    readType (k + 1) ("Vec<".toList ++ s) = some (.vec t, r) := by
  have hword : IsWord ['V', 'e', 'c'] := isWord_of_all (by decide)
  have hread := readWord_append keywords hword (wordEnds_of (by decide : identCont '<' = false) s)
  rw [if_neg (by decide)] at hread
  -- the letters of the literal, for the tests on the first of them
  show readType (k + 1) ('V' :: 'e' :: 'c' :: '<' :: s) = _
  rw [readType, if_neg (by decide), if_neg (by decide)]
  show (readWord keywords (['V', 'e', 'c'] ++ '<' :: s)).bind _ = _
  rw [hread, Option.bind_some]
  have hopen : expect ['<'] ('<' :: s) = some s := expect_append ['<'] s
  have hclose : expect ['>'] ('>' :: r) = some r := expect_append ['>'] r
  rw [hopen]
  dsimp only
  rw [if_pos rfl, h, Option.bind_some, hclose]
  rfl

theorem readType_array {s r : List Char} {k n : ℕ} {t : RustType}
    (h : readType k s = some (t, ';' :: ' ' :: ((toString n).toList ++ ']' :: r))) :
    readType (k + 1) ('[' :: s) = some (.array t n, r) := by
  have hnumber := readNumber_append n (forall_head_cons (by decide : ']'.isDigit = false) r)
  have hsep : expect [';', ' '] (';' :: ' ' :: ((toString n).toList ++ ']' :: r)) =
      some ((toString n).toList ++ ']' :: r) := expect_append [';', ' '] _
  have hclose : expect [']'] (']' :: r) = some r := expect_append [']'] r
  rw [readType, if_pos rfl, h, Option.bind_some, hsep, Option.bind_some, hnumber,
    Option.bind_some, hclose]
  rfl

theorem readType_unit (k : ℕ) (r : List Char) :
    readType (k + 1) ('(' :: ')' :: r) = some (.tuple [], r) := by
  have hclose : expect [')'] (')' :: r) = some r := expect_append [')'] r
  rw [readType, if_neg (by decide), if_pos rfl, hclose]

theorem readType_group {s r : List Char} {k : ℕ} {ts : List RustType}
    (hs : ∀ c ∈ s.head?, c ≠ ')') (h : readTypes k s = some (ts, ')' :: r)) :
    readType (k + 1) ('(' :: s) = some (grouped ts, r) := by
  have hclose : expect [')'] (')' :: r) = some r := expect_append [')'] r
  rw [readType, if_neg (by decide), if_pos rfl, expect_eq_none hs]
  dsimp only
  rw [h, Option.bind_some, hclose]
  rfl

theorem readTypes_last {s r : List Char} {k : ℕ} {t : RustType}
    (hrest : ∀ c ∈ r.head?, c ≠ ',') (h : readType k s = some (t, r)) :
    readTypes (k + 1) s = some ([t], r) := by
  rw [readTypes, h, Option.bind_some, expect_eq_none hrest]

theorem readTypes_cons {s r : List Char} {k : ℕ} {t : RustType} {ts : List RustType}
    {u : List Char} (h : readType k s = some (t, ',' :: ' ' :: u))
    (hts : readTypes k u = some (ts, r)) : readTypes (k + 1) s = some (t :: ts, r) := by
  have hsep : expect [',', ' '] (',' :: ' ' :: u) = some u := expect_append [',', ' '] u
  rw [readTypes, h, Option.bind_some, hsep]
  dsimp only
  rw [hts]
  rfl

end RustText
