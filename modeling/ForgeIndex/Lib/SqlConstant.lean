import Mathlib.Algebra.Field.Rat
import ForgeIndex.Lib.Delimited
import ForgeIndex.Lib.SqlCondition

/-!
# SQL constants

A string between quotes, a decimal number with a sign or without, `true`, `false` and `NULL`: how
they are written, which tokens they are read as, and the value of a number.
-/

namespace SqlLexer

/-- The characters of a token. -/
def Token.text : Token → List Char
  | word w | number w => w
  | string v => '\'' :: (doubled '\'' v ++ ['\''])
  | escape s => 'E' :: '\'' :: (s ++ ['\''])
  | dollar tag s => '$' :: tag ++ '$' :: s ++ '$' :: tag ++ ['$']
  | stray tag => '$' :: tag
  | quoted v => '"' :: (doubled '"' v ++ ['"'])
  | symbol c => [c]

/-- No character is left over: the text is made of its tokens, without space and comments. -/
def Whole (text : List Char) : Prop := (lex text).flatMap Token.text = text

instance (text : List Char) : Decidable (Whole text) :=
  inferInstanceAs (Decidable ((lex text).flatMap Token.text = text))

inductive Sign where
  | none | plus | minus
  deriving DecidableEq

namespace Sign

def text : Sign → List Char
  | none => []
  | plus => ['+']
  | minus => ['-']

def value : Sign → ℤ
  | none | plus => 1
  | minus => -1

/-- The lexer takes a sign for a symbol. -/
def tokens (s : Sign) : List Token := s.text.map Token.symbol

theorem flatMap_tokens (s : Sign) : s.tokens.flatMap Token.text = s.text := by
  cases s <;> rfl

theorem text_append_inj {s t : Sign} {x y : List Char}
    (hx : x.head? ≠ some '+' ∧ x.head? ≠ some '-') (hy : y.head? ≠ some '+' ∧ y.head? ≠ some '-')
    (h : s.text ++ x = t.text ++ y) : s = t ∧ x = y := by
  cases s with
  | none =>
    cases t with
    | none => exact ⟨rfl, h⟩
    | plus => exact absurd (congrArg List.head? h) hx.1
    | minus => exact absurd (congrArg List.head? h) hx.2
  | plus =>
    cases t with
    | none => exact absurd (congrArg List.head? h).symm hy.1
    | plus => exact ⟨rfl, (List.cons.inj h).2⟩
    | minus => exact absurd (List.cons.inj h).1 (by decide)
  | minus =>
    cases t with
    | none => exact absurd (congrArg List.head? h).symm hy.2
    | plus => exact absurd (List.cons.inj h).1 (by decide)
    | minus => exact ⟨rfl, (List.cons.inj h).2⟩

end Sign

/-- A number with digits on at least one side of its point, and an exponent or none. -/
structure Decimal where
  sign : Sign
  int : List Char
  frac : Option (List Char)
  exp : Option (Bool × Sign × List Char)
  digits : ∀ c ∈ int ++ frac.getD [], c.isDigit = true
  nonempty : int ++ frac.getD [] ≠ []
  exp_digits : ∀ e ∈ exp, e.2.2 ≠ [] ∧ ∀ c ∈ e.2.2, c.isDigit = true

namespace Decimal

variable (n : Decimal)

def fracText : List Char :=
  match n.frac with
  | none => []
  | some ds => '.' :: ds

/-- The exponent, behind a small or a capital letter. -/
def expText : List Char :=
  match n.exp with
  | none => []
  | some (capital, s, ds) => (if capital then 'E' else 'e') :: s.text ++ ds

def unsigned : List Char := n.int ++ n.fracText ++ n.expText

def text : List Char := n.sign.text ++ n.unsigned

/-- The exponent as a number. -/
def scale : ℤ :=
  match n.exp with
  | none => 0
  | some (_, s, ds) => s.value * Nat.ofDigitChars 10 ds 0

/-- The number that is written. -/
def value : ℚ :=
  n.sign.value * Nat.ofDigitChars 10 (n.int ++ n.frac.getD []) 0 *
    10 ^ (n.scale - (n.frac.getD []).length)

/-- The lexer takes a point ahead of all digits for a symbol. -/
def unsignedTokens : List Token :=
  if n.int = [] then [.symbol '.', .number (n.frac.getD [] ++ n.expText)]
  else [.number n.unsigned]

def tokens : List Token := n.sign.tokens ++ n.unsignedTokens

theorem ne_sign_of_isDigit {c : Char} (h : c.isDigit = true) : c ≠ '+' ∧ c ≠ '-' := by
  constructor
  · intro hc
    rw [hc] at h
    cases h
  · intro hc
    rw [hc] at h
    cases h

theorem frac_of_int_nil (h : n.int = []) : ∃ d ds, n.frac = some (d :: ds) := by
  have hne := n.nonempty
  rw [h, List.nil_append] at hne
  cases hfrac : n.frac with
  | none =>
    rw [hfrac] at hne
    exact absurd rfl hne
  | some ds =>
    rw [hfrac] at hne
    obtain ⟨d, ds, rfl⟩ := List.exists_cons_of_ne_nil hne
    exact ⟨d, ds, rfl⟩

theorem expText_cases : n.expText = [] ∨ ∃ e s ds, n.expText = e :: s ++ ds ∧
    (e = 'e' ∨ e = 'E') ∧ (s = [] ∨ s = ['+'] ∨ s = ['-']) ∧ ∀ c ∈ ds, c.isDigit = true := by
  unfold expText
  have hdigits := n.exp_digits
  cases hexp : n.exp with
  | none => exact .inl rfl
  | some e =>
    obtain ⟨capital, s, ds⟩ := e
    refine .inr ⟨_, s.text, ds, rfl, ?_, ?_, (hdigits _ hexp).2⟩
    · cases capital
      · exact .inl rfl
      · exact .inr rfl
    · cases s
      · exact .inl rfl
      · exact .inr (.inl rfl)
      · exact .inr (.inr rfl)

theorem fracText_cases : n.fracText = [] ∨ ∃ ds, n.fracText = '.' :: ds ∧
    ∀ c ∈ ds, c.isDigit = true := by
  unfold fracText
  have hdigits := n.digits
  cases hfrac : n.frac with
  | none => exact .inl rfl
  | some ds =>
    rw [hfrac] at hdigits
    exact .inr ⟨ds, rfl, fun c hc => hdigits c (List.mem_append_right _ hc)⟩

theorem reads_unsignedTokens : Lexes n.unsigned n.unsignedTokens := by
  have hdigits := n.digits
  unfold unsignedTokens
  split_ifs with hint
  · -- the point is followed by the digits
    obtain ⟨d, ds, hfrac⟩ := n.frac_of_int_nil hint
    rw [hfrac] at hdigits
    have htext : n.unsigned = '.' :: (d :: (ds ++ [] ++ n.expText)) := by
      unfold unsigned fracText
      rw [hint, hfrac]
      simp
    have hds : ∀ c ∈ d :: ds, c.isDigit = true := fun c hc =>
      hdigits c (List.mem_append_right _ hc)
    have hread := reads_unsigned hds (.inl rfl) n.expText_cases
    intro rest hrest
    rw [htext, List.cons_append, lex_symbol rfl, hread rest hrest, hfrac]
    simp
  · obtain ⟨d, int, hcons⟩ := List.exists_cons_of_ne_nil hint
    have htext : n.unsigned = d :: (int ++ n.fracText ++ n.expText) := by
      unfold unsigned
      rw [hcons]
      rfl
    rw [htext]
    apply reads_unsigned _ n.fracText_cases n.expText_cases
    intro c hc
    rw [← hcons] at hc
    exact hdigits c (List.mem_append_left _ hc)

theorem unsigned_cons : ∃ c s, n.unsigned = c :: s ∧ c ≠ '+' ∧ c ≠ '-' := by
  have hdigits := n.digits
  by_cases hint : n.int = []
  · obtain ⟨d, ds, hfrac⟩ := n.frac_of_int_nil hint
    refine ⟨'.', d :: ds ++ n.expText, ?_, by decide, by decide⟩
    unfold unsigned fracText
    rw [hint, hfrac]
    rfl
  · obtain ⟨d, int, hcons⟩ := List.exists_cons_of_ne_nil hint
    refine ⟨d, int ++ n.fracText ++ n.expText, ?_, ?_⟩
    · unfold unsigned
      rw [hcons]
      rfl
    · have hd := hdigits d (by rw [hcons]; exact List.mem_cons_self)
      exact ne_sign_of_isDigit hd

theorem reads : Lexes n.text n.tokens := by
  have hread := n.reads_unsignedTokens
  unfold text tokens
  cases n.sign with
  | none => exact hread
  | plus =>
    intro rest hrest
    exact (lex_symbol rfl _).trans (congrArg _ (hread rest hrest))
  | minus =>
    intro rest hrest
    obtain ⟨c, s, hcons, hc⟩ := n.unsigned_cons
    have hrest' := hread rest hrest
    rw [hcons] at hrest' ⊢
    exact (lex_minus hc.2 _).trans (congrArg _ hrest')

theorem flatMap_tokens : n.tokens.flatMap Token.text = n.text := by
  unfold tokens text
  rw [List.flatMap_append, Sign.flatMap_tokens]
  congr 1
  unfold unsignedTokens
  split_ifs with hint
  · obtain ⟨d, ds, hfrac⟩ := n.frac_of_int_nil hint
    unfold unsigned fracText
    rw [hint, hfrac]
    simp [Token.text]
  · exact List.append_nil n.unsigned

theorem nulFree_expText : NulFree n.expText := by
  unfold expText
  have hdigits := n.exp_digits
  cases hexp : n.exp with
  | none => exact nulFree_nil
  | some e =>
    obtain ⟨capital, s, ds⟩ := e
    have hds : NulFree ds := nulFree_digits (hdigits _ hexp).2
    have hs : NulFree s.text := by cases s <;> decide
    have hletter : (if capital then 'E' else 'e') ≠ Char.ofNat 0 := by cases capital <;> decide
    simp only [nulFree_cons, nulFree_append]
    exact ⟨⟨hletter, hs⟩, hds⟩

theorem nulFree_text : NulFree n.text := by
  have hdigits := n.digits
  have hsign : NulFree n.sign.text := by cases n.sign <;> decide
  have hint : NulFree n.int := nulFree_digits fun c hc => hdigits c (List.mem_append_left _ hc)
  have hfrac : NulFree n.fracText := by
    rcases n.fracText_cases with h | ⟨ds, h, hds⟩
    · rw [h]
      exact nulFree_nil
    · rw [h, nulFree_cons]
      exact ⟨by decide, nulFree_digits hds⟩
  unfold text unsigned
  simp only [nulFree_append]
  exact ⟨hsign, ⟨hint, hfrac⟩, n.nulFree_expText⟩

theorem expText_head : ∀ c ∈ n.expText.head?, c.isDigit = false ∧ c ≠ '.' := by
  unfold expText
  intro c hc
  cases hexp : n.exp with
  | none =>
    rw [hexp] at hc
    cases hc
  | some e =>
    obtain ⟨capital, s, ds⟩ := e
    rw [hexp] at hc
    cases capital
    all_goals
      cases hc
      decide

theorem behind_int_head : ∀ c ∈ (n.fracText ++ n.expText).head?, c.isDigit = false := by
  unfold fracText
  intro c hc
  cases hfrac : n.frac with
  | none =>
    rw [hfrac] at hc
    exact (n.expText_head c hc).1
  | some ds =>
    rw [hfrac] at hc
    cases hc
    rfl

theorem exp_inj {m n : Decimal} (h : m.expText = n.expText) : m.exp = n.exp := by
  have hhead (k : Decimal) {e : Bool × Sign × List Char} (he : k.exp = some e) :
      e.2.2.head? ≠ some '+' ∧ e.2.2.head? ≠ some '-' := by
    obtain ⟨hne, hdigits⟩ := k.exp_digits e he
    obtain ⟨d, ds, hcons⟩ := List.exists_cons_of_ne_nil hne
    have hd := ne_sign_of_isDigit (hdigits d (by rw [hcons]; exact List.mem_cons_self))
    rw [hcons, List.head?_cons]
    simpa using hd
  unfold expText at h
  cases hm : m.exp with
  | none =>
    cases hn : n.exp with
    | none => rfl
    | some e =>
      rw [hm, hn] at h
      cases h
  | some e =>
    cases hn : n.exp with
    | none =>
      rw [hm, hn] at h
      cases h
    | some e' =>
      obtain ⟨capital, s, ds⟩ := e
      obtain ⟨capital', s', ds'⟩ := e'
      rw [hm, hn] at h
      obtain ⟨hletter, hrest⟩ := List.cons.inj h
      obtain ⟨rfl, rfl⟩ := Sign.text_append_inj (hhead m hm) (hhead n hn) hrest
      have hcapital : capital = capital' := by
        cases capital <;> cases capital' <;> simp at hletter ⊢
      rw [hcapital]

theorem frac_inj {m n : Decimal} (h : m.fracText ++ m.expText = n.fracText ++ n.expText) :
    m.frac = n.frac ∧ m.expText = n.expText := by
  have hdigits (k : Decimal) {ds : List Char} (hds : k.frac = some ds) :
      ∀ c ∈ ds, c.isDigit = true := by
    intro c hc
    have hk := k.digits
    rw [hds] at hk
    exact hk c (List.mem_append_right _ hc)
  have hpoint (k : Decimal) (s : List Char) : '.' :: s ≠ k.expText := by
    intro hs
    have hhead := k.expText_head '.' (by rw [← hs]; rfl)
    exact hhead.2 rfl
  unfold fracText at h
  cases hm : m.frac with
  | none =>
    cases hn : n.frac with
    | none =>
      rw [hm, hn] at h
      exact ⟨rfl, h⟩
    | some ds =>
      rw [hm, hn] at h
      exact absurd h.symm (hpoint m _)
  | some ds =>
    cases hn : n.frac with
    | none =>
      rw [hm, hn] at h
      exact absurd h (hpoint n _)
    | some ds' =>
      rw [hm, hn] at h
      obtain ⟨hfrac, hexp⟩ := Delimited.word_inj (hdigits m hm) (hdigits n hn)
        (fun c hc => (m.expText_head c hc).1) (fun c hc => (n.expText_head c hc).1)
        (List.cons.inj h).2
      exact ⟨congrArg some hfrac, hexp⟩

theorem text_inj {m n : Decimal} (h : m.text = n.text) : m = n := by
  have hhead (k : Decimal) : k.unsigned.head? ≠ some '+' ∧ k.unsigned.head? ≠ some '-' := by
    obtain ⟨c, s, hcons, hc⟩ := k.unsigned_cons
    rw [hcons, List.head?_cons]
    simpa using hc
  obtain ⟨hsign, hunsigned⟩ := Sign.text_append_inj (hhead m) (hhead n) h
  unfold unsigned at hunsigned
  rw [List.append_assoc, List.append_assoc] at hunsigned
  obtain ⟨hint, hrest⟩ := Delimited.word_inj
    (fun c hc => m.digits c (List.mem_append_left _ hc))
    (fun c hc => n.digits c (List.mem_append_left _ hc)) m.behind_int_head n.behind_int_head
    hunsigned
  obtain ⟨hfrac, hexpText⟩ := frac_inj hrest
  have hexp := exp_inj hexpText
  cases m
  cases n
  simp only [mk.injEq]
  exact ⟨hsign, hint, hfrac, hexp⟩

/-- A whole number. -/
def ofInt (i : ℤ) : Decimal where
  sign := if i < 0 then .minus else .none
  int := (toString i.natAbs).toList
  frac := none
  exp := none
  digits c hc := by
    rw [Option.getD_none, List.append_nil] at hc
    have hlist : (toString i.natAbs).toList = Nat.toDigits 10 i.natAbs := Nat.toList_repr
    rw [hlist] at hc
    exact Nat.isDigit_of_mem_toDigits (by omega) (by omega) hc
  nonempty := by
    have hlist : (toString i.natAbs).toList = Nat.toDigits 10 i.natAbs := Nat.toList_repr
    rw [Option.getD_none, List.append_nil, hlist]
    exact Nat.toDigits_ne_nil
  exp_digits e he := by cases he

theorem text_ofInt (i : ℤ) : (ofInt i).text = (toString i).toList := by
  cases i with
  | ofNat m =>
    show [] ++ (m.repr.toList ++ [] ++ []) = m.repr.toList
    simp
  | negSucc m =>
    have hsign : (ofInt (.negSucc m)).sign = .minus := if_pos (Int.negSucc_lt_zero m)
    unfold text
    rw [hsign]
    show ['-'] ++ ((m + 1).repr.toList ++ [] ++ []) = ("-" ++ (m + 1).repr).toList
    rw [String.toList_append]
    simp

theorem value_ofInt (i : ℤ) : (ofInt i).value = i := by
  have hlist : (toString i.natAbs).toList = Nat.toDigits 10 i.natAbs := Nat.toList_repr
  have hdigits : Nat.ofDigitChars 10 ((toString i.natAbs).toList ++ []) 0 = i.natAbs := by
    rw [List.append_nil, hlist]
    exact Nat.ofDigitChars_toDigits (by omega) (by omega)
  have hvalue : (ofInt i).value = ((if i < 0 then Sign.minus else .none).value : ℚ) *
      Nat.ofDigitChars 10 ((toString i.natAbs).toList ++ []) 0 * 10 ^ ((0 : ℤ) - (0 : ℕ)) := rfl
  have hscale : (0 : ℤ) - (0 : ℕ) = 0 := by omega
  rw [hvalue, hdigits, hscale, zpow_zero, mul_one]
  split_ifs with h
  · show ((-1 : ℤ) : ℚ) * i.natAbs = i
    have habs : (i.natAbs : ℤ) = -i := by omega
    rw [← Int.cast_natCast i.natAbs, habs]
    simp
  · show ((1 : ℤ) : ℚ) * i.natAbs = i
    have habs : (i.natAbs : ℤ) = i := by omega
    rw [← Int.cast_natCast i.natAbs, habs]
    simp

end Decimal

/-- A quoted string, an optionally signed decimal number, `true`, `false` or `NULL`. -/
inductive Constant where
  | string (v : List Char)
  | number (n : Decimal)
  | bool (b : Bool)
  | null

namespace Constant

def tokens : Constant → List Token
  | string v => [.string v]
  | number n => n.tokens
  | bool b => [.word (if b then "true" else "false").toList]
  | null => [.word "NULL".toList]

def text : Constant → List Char
  | string v => '\'' :: (doubled '\'' v ++ ['\''])
  | number n => n.text
  | bool b => (if b then "true" else "false").toList
  | null => "NULL".toList

theorem reads (c : Constant) : Lexes c.text c.tokens := by
  cases c with
  | string v => exact reads_string v
  | number n => exact n.reads
  | bool b =>
    cases b
    · exact @reads_word "alse".toList 'f' rfl (by decide)
    · exact @reads_word "rue".toList 't' rfl (by decide)
  | null => exact @reads_word "ULL".toList 'N' rfl (by decide)

theorem flatMap_tokens (c : Constant) : c.tokens.flatMap Token.text = c.text := by
  cases c with
  | string v => exact List.append_nil _
  | number n => exact n.flatMap_tokens
  | bool b => exact List.append_nil _
  | null => exact List.append_nil _

theorem nulFree_text {c : Constant} : NulFree c.text ↔ ∀ v, c = .string v → NulFree v := by
  cases c with
  | string v =>
    have hquote : '\'' ≠ Char.ofNat 0 := by decide
    unfold text
    simp [nulFree_doubled, hquote]
  | number n => simp [text, n.nulFree_text]
  | bool b =>
    have htext : NulFree (bool b).text := by cases b <;> decide
    simp [htext]
  | null =>
    have htext : NulFree null.text := by decide
    simp [htext]

end Constant

/-- The text is read as the constant wherever it stands, no character of it is left over, and it
may stand in a SQL text. -/
def IsConstant (text : List Char) (c : Constant) : Prop :=
  Lexes text c.tokens ∧ Whole text ∧ NulFree text

theorem isConstant_iff {text : List Char} {c : Constant} :
    IsConstant text c ↔ text = c.text ∧ ∀ v, c = .string v → NulFree v := by
  rw [← Constant.nulFree_text]
  unfold IsConstant Whole
  constructor
  · intro ⟨hread, hwhole, hnul⟩
    rw [hread.lex_eq, c.flatMap_tokens] at hwhole
    exact ⟨hwhole.symm, hwhole ▸ hnul⟩
  · intro ⟨htext, hnul⟩
    rw [htext, c.reads.lex_eq]
    exact ⟨c.reads, c.flatMap_tokens, hnul⟩

end SqlLexer
