import Mathlib.Data.Bool.AllAny
import Mathlib.Data.List.Basic
import Mathlib.Data.List.Induction
import Mathlib.Tactic.IntervalCases
import Mathlib.Tactic.Common

/-!
# SQL tokens

The lexical rules of PostgreSQL with standard-conforming strings: words, numbers, string literals and
quoted identifiers with doubled quotes, escape strings, dollar quotes, line comments and nested block
comments.  The lexer is a machine that reads one character at a time, so that the tokens of a text
are those of its parts.
-/

namespace SqlLexer

/-- The text has no character U+0000, which no SQL text may hold, not even between quotes. -/
def NulFree (text : List Char) : Prop := Char.ofNat 0 ∉ text

instance (text : List Char) : Decidable (NulFree text) :=
  inferInstanceAs (Decidable (Char.ofNat 0 ∉ text))

@[simp] theorem nulFree_nil : NulFree [] := List.not_mem_nil

@[simp] theorem nulFree_cons {c : Char} {s : List Char} :
    NulFree (c :: s) ↔ c ≠ Char.ofNat 0 ∧ NulFree s := by
  unfold NulFree
  rw [List.mem_cons, not_or, ne_comm]

@[simp] theorem nulFree_append {a b : List Char} : NulFree (a ++ b) ↔ NulFree a ∧ NulFree b := by
  unfold NulFree
  rw [List.mem_append, not_or]

theorem nulFree_intercalate {gap : List Char} (hgap : NulFree gap) {texts : List (List Char)} :
    NulFree (gap.intercalate texts) ↔ ∀ text ∈ texts, NulFree text := by
  induction texts with
  | nil => simp
  | cons text texts ih =>
    cases texts with
    | nil => simp
    | cons text' texts =>
      rw [List.intercalate_cons_cons, List.append_assoc, nulFree_append, nulFree_append, ih,
        List.forall_mem_cons]
      simp [hgap]

theorem nulFree_of_forall {p : Char → Bool} (hp : p (Char.ofNat 0) = false) {s : List Char}
    (h : ∀ c ∈ s, p c = true) : NulFree s := by
  intro hmem
  rw [h _ hmem] at hp
  cases hp

theorem nulFree_digits {ds : List Char} (h : ∀ c ∈ ds, c.isDigit = true) : NulFree ds :=
  nulFree_of_forall rfl h

inductive Token where
  | word (text : List Char)
  | number (text : List Char)
  | string (value : List Char)
  /-- `E'text'`, with the text as it is written. -/
  | escape (text : List Char)
  /-- `$tag$text$tag$` -/
  | dollar (tag text : List Char)
  /-- A dollar sign that begins no quote, with the identifier at it. -/
  | stray (tag : List Char)
  | quoted (name : List Char)
  | symbol (c : Char)
  deriving DecidableEq, Repr

/-- What the lexer is in the middle of.  `quoteEnd` and `escapeEnd` have just seen a quote that ends
the token unless another quote follows, `escaped` a backslash; `gap` has seen only white space and
line comments since an escape string, and behind a new line there a quote goes on with the string.
`dollar` is in what may be the delimiter ahead of a text, `dollarEnd` in what may be the one behind
it; `block n` is inside of `n + 1` comments. -/
inductive Mode where
  | plain
  | word (text : List Char)
  | number (text : List Char)
  | inQuotes (quote : Char) (value : List Char)
  | quoteEnd (quote : Char) (value : List Char)
  | inEscape (stray : Bool) (text : List Char)
  | escaped (stray : Bool) (text : List Char)
  | escapeEnd (stray : Bool) (text : List Char)
  | gap (newline : Bool)
  | gapDash (newline : Bool)
  | gapLine (newline : Bool)
  | dollar (tag : List Char)
  | inDollar (tag text : List Char)
  | dollarEnd (tag text part : List Char)
  | dollarDone (tag text : List Char)
  | dash
  | slash
  | line
  | block (n : ℕ)
  | blockStar (n : ℕ)
  | blockSlash (n : ℕ)
  deriving DecidableEq, Repr

/-- The token between single quotes or between double quotes. -/
def quoteToken (quote : Char) (value : List Char) : Token :=
  if quote = '\'' then .string value else .quoted value

/-- Space, tab, newline, vertical tab, form feed and carriage return. -/
def isSpace (c : Char) : Bool := c == ' ' || (9 ≤ c.toNat && c.toNat ≤ 13)

/-- A letter, an underscore, or a character beyond ASCII. -/
def identStart (c : Char) : Bool := c.isAlpha || c == '_' || decide (128 ≤ c.toNat)

def identCont (c : Char) : Bool := identStart c || c.isDigit || c == '$'

/-- The word that makes an escape string of a quote right behind it. -/
def isEscapeMark (text : List Char) : Bool := text == ['e'] || text == ['E']

/-- The character goes on with a word or makes an escape string of it. -/
def wordCont (text : List Char) (c : Char) : Bool := identCont c || (c == '\'' && isEscapeMark text)

/-- The character goes on with the tag of a dollar quote: an identifier without dollar signs. -/
def tagCont (tag : List Char) (c : Char) : Bool := identStart c || (c.isDigit && !tag.isEmpty)

/-- A character that goes on with a number: a digit, a letter of a malformed number, the point, or
the sign of an exponent. -/
def numberCont (text : List Char) (c : Char) : Bool :=
  identCont c || c == '.' ||
    ((c == '+' || c == '-') && (text.getLast? == some 'e' || text.getLast? == some 'E') &&
      text.dropLast.all fun d => d.isDigit || d == '.')

/-- The first character of a token. -/
def start (c : Char) : List Token × Mode :=
  if isSpace c then ([], .plain)
  else if c = '\'' ∨ c = '"' then ([], .inQuotes c [])
  else if c = '-' then ([], .dash)
  else if c = '/' then ([], .slash)
  else if identStart c then ([], .word [c])
  else if c.isDigit then ([], .number [c])
  else if c = '$' then ([], .dollar [])
  else ([.symbol c], .plain)

/-- Line feed and carriage return. -/
def isNewline (c : Char) : Bool := c == '\n' || c == '\r'

/-- The first character of a token, or of what stands between an escape string and its next part. -/
def startGap (newline : Bool) (c : Char) : List Token × Mode :=
  if isSpace c then ([], .gap (newline || isNewline c))
  else if c = '\'' ∧ newline = true then ([], .inEscape false [])
  else if c = '-' then ([], .gapDash newline)
  else start c

/-- The first character of a token behind that of the mode. -/
def opens : Mode → Char → List Token × Mode
  | .escapeEnd _ _, c => startGap false c
  | .gap newline, c => startGap newline c
  | _, c => start c

/-- The token that a mode stands for when the text ends or another token begins. -/
def flush : Mode → List Token
  | .word text => [.word text]
  | .number text => [.number text]
  | .quoteEnd quote value => [quoteToken quote value]
  | .escapeEnd stray text => if stray then [.stray [], .escape text] else [.escape text]
  | .dollar tag => [.stray tag]
  | .dollarDone tag text => [.dollar tag text]
  | .dash | .gapDash _ => [.symbol '-']
  | .slash => [.symbol '/']
  | _ => []

/-- The mode is outside of quotes and comments. -/
def Mode.closed : Mode → Bool
  | .plain | .word _ | .number _ | .quoteEnd _ _ | .escapeEnd _ _ | .gap _ | .gapDash _ | .dollar _
  | .dollarDone _ _ | .dash | .slash => true
  | _ => false

/-- One character. -/
def step (m : Mode) (c : Char) : List Token × Mode :=
  let next : List Token × Mode := (flush m ++ (opens m c).1, (opens m c).2)
  match m with
  | .plain | .gap _ | .dollarDone _ _ => next
  | .word text =>
    if identCont c then ([], .word (text ++ [c]))
    else if c = '\'' ∧ isEscapeMark text = true then ([], .inEscape false [])
    else next
  | .number text => if numberCont text c then ([], .number (text ++ [c])) else next
  | .inQuotes quote value =>
    if c = quote then ([], .quoteEnd quote value) else ([], .inQuotes quote (value ++ [c]))
  | .quoteEnd quote value => if c = quote then ([], .inQuotes quote (value ++ [c])) else next
  | .inEscape stray text =>
    if c = '\'' then ([], .escapeEnd stray text)
    else if c = '\\' then ([], .escaped stray (text ++ [c]))
    else ([], .inEscape stray (text ++ [c]))
  | .escaped stray text => ([], .inEscape stray (text ++ [c]))
  | .escapeEnd stray text => if c = '\'' then ([], .inEscape stray (text ++ [c])) else next
  | .gapDash newline => if c = '-' then ([], .gapLine newline) else next
  | .gapLine newline => if isNewline c then ([], .gap true) else ([], .gapLine newline)
  | .dollar tag =>
    if c = '$' then ([], .inDollar tag [])
    else if tagCont tag c then ([], .dollar (tag ++ [c]))
    else if c = '\'' ∧ isEscapeMark tag = true then ([], .inEscape true [])
    else next
  | .inDollar tag text =>
    if c = '$' then ([], .dollarEnd tag text []) else ([], .inDollar tag (text ++ [c]))
  | .dollarEnd tag text part =>
    -- a dollar sign that ends no delimiter may begin the next one
    if c = '$' then
      ([], if part = tag then .dollarDone tag text else .dollarEnd tag (text ++ '$' :: part) [])
    else if tagCont part c then ([], .dollarEnd tag text (part ++ [c]))
    else ([], .inDollar tag (text ++ '$' :: part ++ [c]))
  | .dash => if c = '-' then ([], .line) else next
  | .slash => if c = '*' then ([], .block 0) else next
  | .line => if isNewline c then ([], .plain) else ([], .line)
  | .block n =>
    if c = '*' then ([], .blockStar n) else if c = '/' then ([], .blockSlash n) else ([], .block n)
  | .blockStar n =>
    if c = '/' then ([], if n = 0 then .plain else .block (n - 1))
    else if c = '*' then ([], .blockStar n)
    else ([], .block n)
  | .blockSlash n =>
    if c = '*' then ([], .block (n + 1))
    else if c = '/' then ([], .blockSlash n)
    else ([], .block n)

/-- The tokens of a text that is read from a mode on. -/
def lexFrom : Mode → List Char → List Token
  | m, [] => flush m
  | m, c :: s => (step m c).1 ++ lexFrom (step m c).2 s

/-- The tokens of a text. -/
def lex (s : List Char) : List Token := lexFrom .plain s

/-- The mode after a text. -/
def modeAfter : Mode → List Char → Mode
  | m, [] => m
  | m, c :: s => modeAfter (step m c).2 s

/-- The tokens that end inside of a text. -/
def emitted : Mode → List Char → List Token
  | _, [] => []
  | m, c :: s => (step m c).1 ++ emitted (step m c).2 s

theorem lexFrom_append (m : Mode) (a b : List Char) :
    lexFrom m (a ++ b) = emitted m a ++ lexFrom (modeAfter m a) b := by
  induction a generalizing m with
  | nil => rfl
  | cons c a ih =>
    rw [List.cons_append, lexFrom, emitted, modeAfter, ih, List.append_assoc]

theorem lexFrom_eq (m : Mode) (s : List Char) :
    lexFrom m s = emitted m s ++ flush (modeAfter m s) := by
  have h := lexFrom_append m s []
  rw [List.append_nil] at h
  exact h

theorem modeAfter_append (m : Mode) (a b : List Char) :
    modeAfter m (a ++ b) = modeAfter (modeAfter m a) b := by
  induction a generalizing m with
  | nil => rfl
  | cons c a ih =>
    rw [List.cons_append, modeAfter, modeAfter, ih]

theorem emitted_append (m : Mode) (a b : List Char) :
    emitted m (a ++ b) = emitted m a ++ emitted (modeAfter m a) b := by
  induction a generalizing m with
  | nil => rfl
  | cons c a ih =>
    rw [List.cons_append, emitted, emitted, modeAfter, ih, List.append_assoc]

/-- The value of a quoted token and the text behind it.  The text begins behind the first quote, or
behind a quote that may be the last one. -/
def readQuoted (quote : Char) : Bool → List Char → Option (List Char × List Char)
  | false, [] => none
  | false, c :: s =>
    if c = quote then readQuoted quote true s
    else (readQuoted quote false s).map fun p => (c :: p.1, p.2)
  | true, [] => some ([], [])
  | true, c :: s =>
    if c = quote then (readQuoted quote false s).map fun p => (c :: p.1, p.2)
    else some ([], c :: s)

/-- A text with each quote doubled. -/
def doubled (quote : Char) (s : List Char) : List Char :=
  s.flatMap fun c => if c = quote then [quote, quote] else [c]

section Quotes

variable {quote : Char}

theorem doubled_cons_self (s : List Char) :
    doubled quote (quote :: s) = quote :: quote :: doubled quote s := by
  unfold doubled
  rw [List.flatMap_cons, if_pos rfl]
  rfl

theorem doubled_cons_ne {c : Char} (h : c ≠ quote) (s : List Char) :
    doubled quote (c :: s) = c :: doubled quote s := by
  unfold doubled
  rw [List.flatMap_cons, if_neg h]
  rfl

theorem lexFrom_quotes (quote : Char) (value s : List Char) (ended : Bool) :
    lexFrom (if ended then .quoteEnd quote value else .inQuotes quote value) s =
      match readQuoted quote ended s with
      | some (v, rest) => quoteToken quote (value ++ v) :: lex rest
      | none => [] := by
  induction s generalizing value ended with
  | nil =>
    cases ended with
    | false => rfl
    | true =>
      rw [readQuoted, if_pos rfl]
      simp [lexFrom, flush, lex]
  | cons c s ih =>
    cases ended with
    | false =>
      rw [readQuoted, if_neg Bool.false_ne_true, lexFrom, step]
      by_cases hc : c = quote
      · simp only [if_pos hc]
        exact ih value true
      · simp only [if_neg hc]
        rw [List.nil_append]
        refine (ih (value ++ [c]) false).trans ?_
        cases readQuoted quote false s with
        | none => rfl
        | some p => simp
    | true =>
      rw [readQuoted, if_pos rfl, lexFrom, step]
      by_cases hc : c = quote
      · simp only [if_pos hc]
        rw [List.nil_append]
        refine (ih (value ++ [c]) false).trans ?_
        cases readQuoted quote false s with
        | none => rfl
        | some p => simp
      · simp only [if_neg hc, List.append_nil]
        rw [List.append_assoc]
        rfl

theorem readQuoted_doubled_append (v s : List Char) :
    readQuoted quote false (doubled quote v ++ s) =
      (readQuoted quote false s).map fun p => (v ++ p.1, p.2) := by
  induction v with
  | nil =>
    show readQuoted quote false s = _
    cases readQuoted quote false s <;> rfl
  | cons c v ih =>
    by_cases hc : c = quote
    · rw [hc, doubled_cons_self, List.cons_append, List.cons_append, readQuoted, if_pos rfl,
        readQuoted, if_pos rfl, ih, Option.map_map]
      rfl
    · rw [doubled_cons_ne hc, List.cons_append, readQuoted, if_neg hc, ih, Option.map_map]
      rfl

theorem readQuoted_doubled {v rest : List Char} (h : rest.head? ≠ some quote) :
    readQuoted quote false (doubled quote v ++ quote :: rest) = some (v, rest) := by
  have hend : readQuoted quote false (quote :: rest) = some ([], rest) := by
    rw [readQuoted, if_pos rfl]
    cases rest with
    | nil => rfl
    | cons c rest =>
      have hc : c ≠ quote := by simpa using h
      rw [readQuoted, if_neg hc]
  rw [readQuoted_doubled_append, hend, Option.map_some, List.append_nil]

/-- What is read between quotes has its quotes doubled; `ended` stands for the last one of them. -/
theorem eq_of_readQuoted {ended : Bool} {s v rest : List Char}
    (h : readQuoted quote ended s = some (v, rest)) :
    (if ended then quote :: s else s) = doubled quote v ++ quote :: rest ∧
      rest.head? ≠ some quote := by
  induction s generalizing ended v with
  | nil =>
    cases ended with
    | false => cases h
    | true =>
      cases h
      exact ⟨rfl, by simp⟩
  | cons c s ih =>
    cases ended with
    | false =>
      rw [readQuoted] at h
      rw [if_neg Bool.false_ne_true]
      by_cases hc : c = quote
      · rw [if_pos hc] at h
        rw [hc]
        exact ih h
      · rw [if_neg hc, Option.map_eq_some_iff] at h
        obtain ⟨⟨v', rest'⟩, hread, hv⟩ := h
        cases hv
        obtain ⟨hs, hrest⟩ := ih hread
        rw [if_neg Bool.false_ne_true] at hs
        refine ⟨?_, hrest⟩
        rw [hs, doubled_cons_ne hc]
        rfl
    | true =>
      rw [readQuoted] at h
      rw [if_pos rfl]
      by_cases hc : c = quote
      · rw [if_pos hc, Option.map_eq_some_iff] at h
        obtain ⟨⟨v', rest'⟩, hread, hv⟩ := h
        cases hv
        obtain ⟨hs, hrest⟩ := ih hread
        rw [if_neg Bool.false_ne_true] at hs
        refine ⟨?_, hrest⟩
        rw [hs, hc, doubled_cons_self]
        rfl
      · rw [if_neg hc] at h
        cases h
        exact ⟨rfl, by simpa using hc⟩

theorem readQuoted_eq_some_iff {s v rest : List Char} :
    readQuoted quote false s = some (v, rest) ↔
      s = doubled quote v ++ quote :: rest ∧ rest.head? ≠ some quote := by
  constructor
  · intro h
    exact eq_of_readQuoted h
  · intro ⟨hs, hrest⟩
    rw [hs]
    exact readQuoted_doubled hrest

theorem nulFree_doubled {v : List Char} : NulFree (doubled quote v) ↔ NulFree v := by
  induction v with
  | nil => rfl
  | cons c v ih =>
    by_cases hc : c = quote
    · rw [hc, doubled_cons_self, nulFree_cons, nulFree_cons, nulFree_cons, ih]
      exact and_self_left
    · rw [doubled_cons_ne hc, nulFree_cons, nulFree_cons, ih]

theorem doubled_of_not_mem {v : List Char} (h : quote ∉ v) : doubled quote v = v := by
  induction v with
  | nil => rfl
  | cons c v ih =>
    rw [doubled_cons_ne fun hc => h (by simp [hc]), ih fun hv => h (List.mem_cons_of_mem _ hv)]

theorem head_of_doubled_ahead {v rest tail : List Char} {k : ℕ}
    (h : List.replicate (k + 1) quote ++ (doubled quote v ++ quote :: tail) = v ++ quote :: rest) :
    rest.head? = some quote := by
  induction v generalizing k with
  | nil =>
    rw [List.replicate_succ] at h
    obtain ⟨-, hrest⟩ := List.cons.inj h
    rw [← hrest]
    cases k <;> simp [doubled, List.replicate_succ]
  | cons c v ih =>
    rw [List.replicate_succ] at h
    obtain ⟨hc, h⟩ := List.cons.inj h
    subst hc
    rw [doubled_cons_self] at h
    apply ih (k := k + 1)
    refine Eq.trans ?_ h
    rw [List.replicate_succ', List.replicate_succ']
    simp

/-- A text between quotes whose quotes are not doubled is read back only without a quote. -/
theorem readQuoted_raw_iff {v rest : List Char} (h : rest.head? ≠ some quote) :
    (∃ rest', readQuoted quote false (v ++ quote :: rest) = some (v, rest')) ↔ quote ∉ v := by
  constructor
  · rintro ⟨rest', hread⟩
    obtain ⟨hs, -⟩ := readQuoted_eq_some_iff.mp hread
    clear hread
    induction v with
    | nil => simp
    | cons c v ih =>
      by_cases hc : c = quote
      · subst hc
        rw [doubled_cons_self] at hs
        obtain ⟨-, hs⟩ := List.cons.inj hs
        exact absurd (head_of_doubled_ahead (k := 0) hs.symm) h
      · rw [doubled_cons_ne hc] at hs
        have := ih (List.cons.inj hs).2
        simp [Ne.symm hc, this]
  · intro hv
    have hread := readQuoted_doubled (v := v) h
    rw [doubled_of_not_mem hv] at hread
    exact ⟨rest, hread⟩

end Quotes

/-- The next character, if any, begins another token. -/
def Ends (m : Mode) (rest : List Char) : Prop :=
  ∀ c ∈ rest.head?, step m c = (flush m ++ (start c).1, (start c).2)

theorem lexFrom_of_ends {m : Mode} {rest : List Char} (h : Ends m rest) :
    lexFrom m rest = flush m ++ lex rest := by
  cases rest with
  | nil => simp [lexFrom, lex, flush]
  | cons c rest =>
    rw [lexFrom, h c rfl, List.append_assoc]
    rfl

theorem lex_cons (c : Char) (s : List Char) : lex (c :: s) = (start c).1 ++ lexFrom (start c).2 s :=
  rfl

theorem lex_space {c : Char} (h : isSpace c = true) (s : List Char) : lex (c :: s) = lex s := by
  rw [lex_cons, start, if_pos h]
  rfl

theorem lex_spaces {gap : List Char} (h : ∀ c ∈ gap, isSpace c = true) (s : List Char) :
    lex (gap ++ s) = lex s := by
  induction gap with
  | nil => rfl
  | cons c gap ih =>
    rw [List.cons_append, lex_space (h c List.mem_cons_self),
      ih fun d hd => h d (List.mem_cons_of_mem _ hd)]

theorem lex_quote {quote : Char} (h : quote = '\'' ∨ quote = '"') (s : List Char) :
    lex (quote :: s) = match readQuoted quote false s with
      | some (v, rest) => quoteToken quote v :: lex rest
      | none => [] := by
  have hspace : isSpace quote = false := by rcases h with rfl | rfl <;> decide
  rw [lex_cons, start, if_neg (by rw [hspace]; exact Bool.false_ne_true), if_pos h]
  exact lexFrom_quotes quote [] s false

theorem identCont_of_wordCont {w : List Char} {c : Char} (h : wordCont w c = false) :
    identCont c = false := by
  unfold wordCont at h
  exact (Bool.or_eq_false_iff.mp h).1

theorem step_word {w : List Char} {c : Char} (h : wordCont w c = false) :
    step (.word w) c = (flush (.word w) ++ (start c).1, (start c).2) := by
  unfold wordCont at h
  simp only [Bool.or_eq_false_iff, Bool.and_eq_false_iff, beq_eq_false_iff_ne] at h
  obtain ⟨hident, hmark⟩ := h
  rw [step, hident, if_neg Bool.false_ne_true, if_neg]
  · rfl
  · rintro ⟨hquote, hescape⟩
    rcases hmark with hne | hno
    · exact hne hquote
    · rw [hescape] at hno
      cases hno

theorem lexFrom_word {w v rest : List Char} (hv : ∀ c ∈ v, identCont c = true)
    (hrest : ∀ c ∈ rest.head?, wordCont (w ++ v) c = false) :
    lexFrom (.word w) (v ++ rest) = .word (w ++ v) :: lex rest := by
  induction v generalizing w with
  | nil =>
    rw [List.append_nil] at hrest
    rw [List.nil_append, List.append_nil]
    exact lexFrom_of_ends fun c hc => step_word (hrest c hc)
  | cons c v ih =>
    rw [List.cons_append, lexFrom, step, hv c List.mem_cons_self, if_pos rfl, List.nil_append,
      ih (fun d hd => hv d (List.mem_cons_of_mem _ hd)) (by rw [List.append_assoc]; exact hrest),
      List.append_assoc]
    rfl

/-- Every character goes on with the number before it. -/
def numberRun : List Char → List Char → Bool
  | _, [] => true
  | w, c :: s => numberCont w c && numberRun (w ++ [c]) s

theorem lexFrom_number {w v rest : List Char} (hv : numberRun w v = true)
    (hrest : ∀ c ∈ rest.head?, numberCont (w ++ v) c = false) :
    lexFrom (.number w) (v ++ rest) = .number (w ++ v) :: lex rest := by
  induction v generalizing w with
  | nil =>
    rw [List.append_nil] at hrest ⊢
    rw [List.nil_append]
    refine lexFrom_of_ends fun c hc => ?_
    rw [step, hrest c hc, if_neg Bool.false_ne_true]
    rfl
  | cons c v ih =>
    rw [numberRun, Bool.and_eq_true] at hv
    rw [List.cons_append, lexFrom, step, hv.1, if_pos rfl, List.nil_append,
      ih hv.2 (by rw [List.append_assoc]; exact hrest), List.append_assoc]
    rfl

theorem lexFrom_word_head {w : List Char} (hw : ∀ v, isEscapeMark (w ++ v) = false) (s : List Char) :
    ∃ v rest, lexFrom (.word w) s = .word (w ++ v) :: rest := by
  induction s generalizing w with
  | nil => exact ⟨[], [], by simp [lexFrom, flush]⟩
  | cons c s ih =>
    have hmark : isEscapeMark w ≠ true := by
      have := hw []
      rw [List.append_nil] at this
      simp [this]
    rw [lexFrom, step]
    split_ifs with hc hquote
    · obtain ⟨v, rest, h⟩ := ih (w := w ++ [c]) fun v => by
        rw [List.append_assoc]
        exact hw _
      exact ⟨c :: v, rest, by rw [h, List.append_assoc]; rfl⟩
    · exact absurd hquote.2 hmark
    · exact ⟨[], (start c).1 ++ lexFrom (start c).2 s, by simp [flush, opens]⟩

theorem lexFrom_number_head (w s : List Char) :
    ∃ v rest, lexFrom (.number w) s = .number (w ++ v) :: rest := by
  induction s generalizing w with
  | nil => exact ⟨[], [], by simp [lexFrom, flush]⟩
  | cons c s ih =>
    rw [lexFrom, step]
    split_ifs
    · obtain ⟨v, rest, h⟩ := ih (w ++ [c])
      exact ⟨c :: v, rest, by rw [h, List.append_assoc]; rfl⟩
    · exact ⟨[], (start c).1 ++ lexFrom (start c).2 s, by simp [flush, opens]⟩

/-- The text is empty, or its last character belongs to no word and no number. -/
def Bound (s : List Char) : Prop := ∀ c ∈ s.getLast?, identStart c = false ∧ c.isDigit = false

theorem bound_append_singleton {s : List Char} {c : Char} :
    Bound (s ++ [c]) ↔ identStart c = false ∧ c.isDigit = false := by
  unfold Bound
  simp

theorem isSpace_cases {c : Char} (h : isSpace c = true) :
    c = ' ' ∨ c = '\t' ∨ c = '\n' ∨ c = '\x0b' ∨ c = '\x0c' ∨ c = '\r' := by
  unfold isSpace at h
  have hc : c = Char.ofNat c.toNat := (Char.ofNat_toNat c).symm
  simp only [Bool.or_eq_true, beq_iff_eq, Bool.and_eq_true, decide_eq_true_eq] at h
  rcases h with h | h
  · exact .inl h
  · have hcases : c.toNat = 9 ∨ c.toNat = 10 ∨ c.toNat = 11 ∨ c.toNat = 12 ∨ c.toNat = 13 := by
      omega
    rcases hcases with h | h | h | h | h
    all_goals
      rw [h] at hc
      simp [hc]

theorem ne_of_pred {p : Char → Bool} {c d : Char} (hc : p c = true) (hd : p d = false) : c ≠ d := by
  rintro rfl
  rw [hc] at hd
  cases hd

theorem isSpace_bound {c : Char} (h : isSpace c = true) :
    identStart c = false ∧ c.isDigit = false := by
  rcases isSpace_cases h with rfl | rfl | rfl | rfl | rfl | rfl <;> decide

theorem bound_of_isNewline {c : Char} (h : isNewline c = true) :
    identStart c = false ∧ c.isDigit = false := by
  unfold isNewline at h
  simp only [Bool.or_eq_true, beq_iff_eq] at h
  rcases h with rfl | rfl <;> decide

theorem identCont_space {c : Char} (h : isSpace c = true) : identCont c = false := by
  rcases isSpace_cases h with rfl | rfl | rfl | rfl | rfl | rfl <;> decide

theorem numberCont_space {c : Char} (h : isSpace c = true) (text : List Char) :
    numberCont text c = false := by
  unfold numberCont
  rw [identCont_space h]
  rcases isSpace_cases h with rfl | rfl | rfl | rfl | rfl | rfl <;> simp

theorem wordCont_space {c : Char} (h : isSpace c = true) (text : List Char) :
    wordCont text c = false := by
  unfold wordCont
  rw [identCont_space h]
  rcases isSpace_cases h with rfl | rfl | rfl | rfl | rfl | rfl <;> simp

theorem tagCont_space {c : Char} (h : isSpace c = true) (tag : List Char) : tagCont tag c = false := by
  unfold tagCont
  rw [(isSpace_bound h).1, (isSpace_bound h).2]
  rfl

/-- The mode behind white space outside of quotes and comments. -/
def afterSpace : Mode → Char → Mode
  | .escapeEnd _ _, c => .gap (isNewline c)
  | .gap newline, c => .gap (newline || isNewline c)
  | _, _ => .plain

theorem afterSpace_cases (m : Mode) (c : Char) :
    afterSpace m c = .plain ∨ ∃ newline, afterSpace m c = .gap newline := by
  cases m with
  | escapeEnd stray text => exact .inr ⟨isNewline c, rfl⟩
  | gap newline => exact .inr ⟨newline || isNewline c, rfl⟩
  | _ => exact .inl rfl

theorem step_space {m : Mode} {c : Char} (hclosed : m.closed = true) (hspace : isSpace c = true)
    (hquote : ∀ q v, m = .quoteEnd q v → q = '\'' ∨ q = '"') :
    step m c = (flush m, afterSpace m c) := by
  have hstart : start c = ([], .plain) := by
    unfold start
    rw [if_pos hspace]
  have hgap (newline : Bool) : startGap newline c = ([], .gap (newline || isNewline c)) := by
    unfold startGap
    rw [if_pos hspace]
  have hnext : (flush m ++ (start c).1, (start c).2) = (flush m, .plain) := by
    rw [hstart, List.append_nil]
  have hne (d : Char) (hd : isSpace d = false) : c ≠ d := ne_of_pred hspace hd
  -- white space ends every token, and only a gap between two parts of a string remembers it
  cases m with
  | plain => exact hnext
  | word text => exact (step_word (wordCont_space hspace text)).trans hnext
  | number text =>
    rw [step, numberCont_space hspace, if_neg Bool.false_ne_true]
    exact hnext
  | quoteEnd quote value =>
    have hq : c ≠ quote := by
      rcases hquote quote value rfl with rfl | rfl
      · exact hne _ (by decide)
      · exact hne _ (by decide)
    rw [step, if_neg hq]
    exact hnext
  | escapeEnd stray text =>
    rw [step, if_neg (hne _ (by decide)), opens, hgap, List.append_nil]
    rfl
  | gap newline =>
    rw [step, opens, hgap]
    rfl
  | gapDash newline =>
    rw [step, if_neg (hne _ (by decide))]
    exact hnext
  | dollar tag =>
    rw [step, if_neg (hne _ (by decide)), tagCont_space hspace, if_neg Bool.false_ne_true,
      if_neg fun h => hne _ (by decide) h.1]
    exact hnext
  | dollarDone tag text => exact hnext
  | dash =>
    rw [step, if_neg (hne _ (by decide))]
    exact hnext
  | slash =>
    rw [step, if_neg (hne _ (by decide))]
    exact hnext
  | inQuotes | inEscape | escaped | gapLine | inDollar | dollarEnd | line | block | blockStar
  | blockSlash => cases hclosed

theorem numberRun_append (w a b : List Char) :
    numberRun w (a ++ b) = (numberRun w a && numberRun (w ++ a) b) := by
  induction a generalizing w with
  | nil => simp [numberRun]
  | cons c a ih => simp [numberRun, ih, Bool.and_assoc]

theorem numberRun_digits {ds : List Char} (h : ∀ c ∈ ds, c.isDigit = true) (w : List Char) :
    numberRun w ds = true := by
  induction ds generalizing w with
  | nil => rfl
  | cons c ds ih =>
    rw [numberRun, ih (fun d hd => h d (List.mem_cons_of_mem _ hd)), Bool.and_true]
    simp [numberCont, identCont, h c List.mem_cons_self]

theorem start_of_identStart {c : Char} (h : identStart c = true) : start c = ([], .word [c]) := by
  have hne (d : Char) (hd : identStart d = false) : c ≠ d := ne_of_pred h hd
  have hspace : isSpace c ≠ true := fun hspace => by
    rw [(isSpace_bound hspace).1] at h
    cases h
  unfold start
  rw [if_neg hspace, if_neg (not_or.mpr ⟨hne _ (by decide), hne _ (by decide)⟩),
    if_neg (hne _ (by decide)), if_neg (hne _ (by decide)), if_pos h]

theorem start_digit {d : Char} (h : d.isDigit = true) : start d = ([], .number [d]) := by
  have hall : ∀ d ∈ "0123456789".toList, start d = ([], .number [d]) :=
    List.all_iff_forall_prop.mp (by decide)
  apply hall
  unfold Char.isDigit at h
  simp only [ge_iff_le, Bool.and_eq_true, decide_eq_true_eq] at h
  have hlo : 48 ≤ d.toNat := h.1
  have hhi : d.toNat ≤ 57 := h.2
  rw [← Char.ofNat_toNat d]
  interval_cases d.toNat <;> decide

theorem lex_digits {ds s : List Char} (hne : ds ≠ []) (hds : ∀ c ∈ ds, c.isDigit = true)
    (hs : ∀ c ∈ s.head?, isSpace c = true) : lex (ds ++ s) = .number ds :: lex s := by
  obtain ⟨d, ds, rfl⟩ := List.exists_cons_of_ne_nil hne
  rw [List.cons_append, lex_cons, start_digit (hds d List.mem_cons_self)]
  refine lexFrom_number (w := [d]) (numberRun_digits (fun c hc =>
    hds c (List.mem_cons_of_mem _ hc)) [d]) fun c hc => ?_
  exact numberCont_space (hs c hc) _

/-- The modes of a character that begins no word, no number and no quote. -/
def Mode.fresh : Mode → Bool
  | .plain | .dash | .slash | .dollar _ | .gap _ | .gapDash _ => true
  | _ => false

theorem start_mode (c : Char) :
    ((start c).2.fresh = true ∧ identStart c = false ∧ c.isDigit = false) ∨
      ((start c).2 = .inQuotes c [] ∧ (c = '\'' ∨ c = '"')) ∨
      ((start c).2 = .word [c] ∧ identStart c = true) ∨ (start c).2 = .number [c] := by
  unfold start
  split_ifs with hspace hquote hdash hslash hident hdigit hdollar
  · exact .inl ⟨rfl, isSpace_bound hspace⟩
  · exact .inr (.inl ⟨rfl, hquote⟩)
  · rw [hdash]
    exact .inl ⟨rfl, by decide⟩
  · rw [hslash]
    exact .inl ⟨rfl, by decide⟩
  · exact .inr (.inr (.inl ⟨rfl, hident⟩))
  · exact .inr (.inr (.inr rfl))
  · rw [hdollar]
    exact .inl ⟨rfl, by decide⟩
  · exact .inl ⟨rfl, by simpa using hident, by simpa using hdigit⟩

theorem opens_cases (m : Mode) (c : Char) :
    opens m c = start c ∨ ∃ newline, opens m c = startGap newline c := by
  cases m with
  | escapeEnd stray text => exact .inr ⟨false, rfl⟩
  | gap newline => exact .inr ⟨newline, rfl⟩
  | _ => exact .inl rfl

/-- The same behind any mode; only there a quote can go on with an escape string. -/
theorem opens_mode (m : Mode) (c : Char) :
    ((opens m c).2.fresh = true ∧ identStart c = false ∧ c.isDigit = false) ∨
      ((opens m c).2 = .inQuotes c [] ∧ (c = '\'' ∨ c = '"')) ∨ (opens m c).2 = .inEscape false [] ∨
      ((opens m c).2 = .word [c] ∧ identStart c = true) ∨ (opens m c).2 = .number [c] := by
  have hstart := start_mode c
  rcases opens_cases m c with h | ⟨newline, h⟩
  · rw [h]
    rcases hstart with h | h | h | h
    · exact .inl h
    · exact .inr (.inl h)
    · exact .inr (.inr (.inr (.inl h)))
    · exact .inr (.inr (.inr (.inr h)))
  · rw [h]
    unfold startGap
    split_ifs with hspace hquote hdash
    · exact .inl ⟨rfl, isSpace_bound hspace⟩
    · exact .inr (.inr (.inl rfl))
    · rw [hdash]
      exact .inl ⟨rfl, by decide⟩
    · rcases hstart with h | h | h | h
      · exact .inl h
      · exact .inr (.inl h)
      · exact .inr (.inr (.inr (.inl h)))
      · exact .inr (.inr (.inr (.inr h)))

theorem word_notMem_start (c : Char) (w : List Char) : .word w ∉ (start c).1 := by
  unfold start
  split_ifs <;> simp

theorem word_notMem_opens (m : Mode) (c : Char) (w : List Char) : .word w ∉ (opens m c).1 := by
  rcases opens_cases m c with h | ⟨newline, h⟩
  · rw [h]
    exact word_notMem_start c w
  · rw [h]
    unfold startGap
    split_ifs
    · simp
    · simp
    · simp
    · exact word_notMem_start c w

theorem word_mem_flush {m : Mode} {w : List Char} : .word w ∈ flush m ↔ m = .word w := by
  cases m <;> simp [flush, eq_comm]
  all_goals
    try unfold quoteToken
    split_ifs <;> simp

theorem word_of_mem_step {m : Mode} {c : Char} {w : List Char} (h : .word w ∈ (step m c).1) :
    m = .word w := by
  have hnext : .word w ∈ flush m ++ (opens m c).1 → m = .word w := fun h =>
    (List.mem_append.mp h).elim word_mem_flush.mp fun h => absurd h (word_notMem_opens m c w)
  cases m <;> unfold step at h <;> dsimp only at h
  case plain | gap | dollarDone => exact hnext h
  case escaped => cases h
  all_goals
    split_ifs at h
    all_goals first
      | exact hnext h
      | cases h

theorem word_of_step {m : Mode} {c : Char} {w : List Char} (h : (step m c).2 = .word w) :
    ∃ v, w = v ++ [c] := by
  have hnext : (opens m c).2 = .word w → ∃ v, w = v ++ [c] := by
    intro h
    rcases opens_mode m c with ⟨hmode, -⟩ | ⟨hmode, -⟩ | hmode | ⟨hmode, -⟩ | hmode
    · rw [h] at hmode
      cases hmode
    · rw [hmode] at h
      cases h
    · rw [hmode] at h
      cases h
    · rw [hmode] at h
      exact ⟨[], (Mode.word.inj h).symm⟩
    · rw [hmode] at h
      cases h
  cases m <;> unfold step at h <;> dsimp only at h
  case plain | gap | dollarDone => exact hnext h
  case escaped => cases h
  case word text =>
    split_ifs at h
    · exact ⟨text, (Mode.word.inj h).symm⟩
    · exact hnext h
  all_goals
    split_ifs at h
    all_goals exact hnext h

/-- A word can begin at the next character. -/
def Mode.opensWord : Mode → Bool
  | .plain | .dash | .slash | .quoteEnd _ _ | .escapeEnd _ _ | .gap _ | .gapDash _
  | .dollarDone _ _ => true
  | _ => false

/-- Where the words of a text are: behind a boundary, and before a character that ends them. -/
structure Tracks (s : List Char) (m : Mode) (toks : List Token) : Prop where
  words : ∀ w, .word w ∈ toks → ∃ before c after,
    s = before ++ w ++ c :: after ∧ Bound before ∧ identCont c = false
  pending : ∀ w, m = .word w → ∃ before, s = before ++ w ∧ Bound before
  opens : m.opensWord = true → Bound s
  quotes : ∀ q v, m = .inQuotes q v ∨ m = .quoteEnd q v → q = '\'' ∨ q = '"'

namespace Tracks

variable {s : List Char} {m : Mode} {toks : List Token}

theorem words_snoc (h : Tracks s m toks) (c : Char) (w : List Char) (hw : .word w ∈ toks) :
    ∃ before d after, s ++ [c] = before ++ w ++ d :: after ∧ Bound before ∧ identCont d = false := by
  obtain ⟨before, d, after, hs, hbefore, hd⟩ := h.words w hw
  refine ⟨before, d, after ++ [c], ?_, hbefore, hd⟩
  rw [hs]
  simp

theorem next (h : Tracks s m toks) {c : Char} (hword : ∀ w, m = .word w → identCont c = false)
    (hopen : identStart c = true → Bound s) :
    Tracks (s ++ [c]) (SqlLexer.opens m c).2 (toks ++ (flush m ++ (SqlLexer.opens m c).1)) := by
  have hwords : ∀ w, .word w ∈ toks ++ (flush m ++ (SqlLexer.opens m c).1) → ∃ before d after,
      s ++ [c] = before ++ w ++ d :: after ∧ Bound before ∧ identCont d = false := by
    intro w hw
    rcases List.mem_append.mp hw with hw | hw
    · exact h.words_snoc c w hw
    rcases List.mem_append.mp hw with hw | hw
    · have hm := word_mem_flush.mp hw
      obtain ⟨before, hs, hbefore⟩ := h.pending w hm
      exact ⟨before, c, [], by rw [hs], hbefore, hword w hm⟩
    · exact absurd hw (word_notMem_opens m c w)
  -- what the character opens: nothing, quotes, an escape string, a word, a number
  rcases opens_mode m c with ⟨hmode, hc⟩ | ⟨hmode, hc⟩ | hmode | ⟨hmode, hc⟩ | hmode
  · refine ⟨hwords, ?_, fun _ => bound_append_singleton.mpr hc, ?_⟩
    · intro w hw
      rw [hw] at hmode
      cases hmode
    · rintro q v (hq | hq)
      all_goals
        rw [hq] at hmode
        cases hmode
  · refine ⟨hwords, by simp [hmode], by simp [hmode, Mode.opensWord], ?_⟩
    rw [hmode]
    intro q v hq
    simp only [Mode.inQuotes.injEq, reduceCtorEq, or_false] at hq
    rw [← hq.1]
    exact hc
  · exact ⟨hwords, by simp [hmode], by simp [hmode, Mode.opensWord], by simp [hmode]⟩
  · refine ⟨hwords, ?_, by simp [hmode, Mode.opensWord], by simp [hmode]⟩
    rw [hmode]
    intro w hw
    exact ⟨s, by rw [← Mode.word.inj hw], hopen hc⟩
  · exact ⟨hwords, by simp [hmode], by simp [hmode, Mode.opensWord], by simp [hmode]⟩

theorem stay (h : Tracks s m toks) {c : Char} {m' : Mode} (hword : ∀ w, m' ≠ .word w)
    (hopen : m'.opensWord = true → identStart c = false ∧ c.isDigit = false)
    (hquotes : ∀ q v, m' = .inQuotes q v ∨ m' = .quoteEnd q v → q = '\'' ∨ q = '"') :
    Tracks (s ++ [c]) m' (toks ++ []) := by
  rw [List.append_nil]
  exact ⟨h.words_snoc c, fun w hw => absurd hw (hword w),
    fun hm => bound_append_singleton.mpr (hopen hm), hquotes⟩

/-- A character inside of an escape string, a dollar quote or a comment, or of its delimiter. -/
theorem inside (h : Tracks s m toks) {c : Char} {m' : Mode} (hword : ∀ w, m' ≠ .word w)
    (hopen : m'.opensWord = false) (hquotes : ∀ q v, m' ≠ .inQuotes q v) :
    Tracks (s ++ [c]) m' (toks ++ []) := by
  refine h.stay hword (fun hm => ?_) ?_
  · rw [hm] at hopen
    cases hopen
  · rintro q v (hq | hq)
    · exact absurd hq (hquotes q v)
    · rw [hq] at hopen
      cases hopen

theorem step (h : Tracks s m toks) (c : Char) :
    Tracks (s ++ [c]) (step m c).2 (toks ++ (step m c).1) := by
  cases m with
  | plain => exact h.next (by simp) fun _ => h.opens rfl
  | word text =>
    unfold SqlLexer.step
    dsimp only
    split_ifs with hc hquote
    · obtain ⟨before, hs, hbefore⟩ := h.pending text rfl
      rw [List.append_nil]
      refine ⟨h.words_snoc c, ?_, by simp [Mode.opensWord], by simp⟩
      intro w hw
      exact ⟨before, by rw [hs, ← Mode.word.inj hw, List.append_assoc], hbefore⟩
    · exact h.inside (by simp) rfl (by simp)
    · refine h.next (fun _ _ => by simpa using hc) fun hstart => absurd ?_ hc
      unfold identCont
      rw [hstart]
      rfl
  | number text =>
    unfold SqlLexer.step
    dsimp only
    split_ifs with hc
    · exact h.inside (by simp) rfl (by simp)
    · refine h.next (by simp) fun hstart => absurd ?_ hc
      unfold numberCont identCont
      rw [hstart]
      rfl
  | inQuotes quote value =>
    have hquote := h.quotes quote value (.inl rfl)
    unfold SqlLexer.step
    dsimp only
    split_ifs with hc
    · refine h.stay (by simp) (fun _ => ?_) fun q v hq => ?_
      · rw [hc]
        rcases hquote with rfl | rfl <;> decide
      · simp only [reduceCtorEq, Mode.quoteEnd.injEq, false_or] at hq
        rw [← hq.1]
        exact hquote
    · refine h.stay (by simp) (by simp [Mode.opensWord]) fun q v hq => ?_
      simp only [Mode.inQuotes.injEq, reduceCtorEq, or_false] at hq
      rw [← hq.1]
      exact hquote
  | quoteEnd quote value =>
    have hquote := h.quotes quote value (.inr rfl)
    unfold SqlLexer.step
    dsimp only
    split_ifs with hc
    · refine h.stay (by simp) (by simp [Mode.opensWord]) fun q v hq => ?_
      simp only [Mode.inQuotes.injEq, reduceCtorEq, or_false] at hq
      rw [← hq.1]
      exact hquote
    · exact h.next (by simp) fun _ => h.opens rfl
  | inEscape stray text =>
    unfold SqlLexer.step
    dsimp only
    split_ifs with hquote hslash
    · refine h.stay (by simp) (fun _ => ?_) (by simp)
      rw [hquote]
      decide
    · exact h.inside (by simp) rfl (by simp)
    · exact h.inside (by simp) rfl (by simp)
  | escaped stray text => exact h.inside (by simp [SqlLexer.step]) rfl (by simp [SqlLexer.step])
  | escapeEnd stray text =>
    unfold SqlLexer.step
    dsimp only
    split_ifs with hc
    · exact h.inside (by simp) rfl (by simp)
    · exact h.next (by simp) fun _ => h.opens rfl
  | gap newline => exact h.next (by simp) fun _ => h.opens rfl
  | gapDash newline =>
    unfold SqlLexer.step
    dsimp only
    split_ifs with hc
    · exact h.inside (by simp) rfl (by simp)
    · exact h.next (by simp) fun _ => h.opens rfl
  | gapLine newline =>
    unfold SqlLexer.step
    dsimp only
    split_ifs with hc
    · exact h.stay (by simp) (fun _ => bound_of_isNewline hc) (by simp)
    · exact h.inside (by simp) rfl (by simp)
  | dollar tag =>
    unfold SqlLexer.step
    dsimp only
    split_ifs with hdollar htag hquote
    · exact h.inside (by simp) rfl (by simp)
    · exact h.inside (by simp) rfl (by simp)
    · exact h.inside (by simp) rfl (by simp)
    · refine h.next (by simp) fun hstart => absurd ?_ htag
      unfold tagCont
      rw [hstart]
      rfl
  | inDollar tag text =>
    unfold SqlLexer.step
    dsimp only
    split_ifs <;> exact h.inside (by simp) rfl (by simp)
  | dollarEnd tag text part =>
    unfold SqlLexer.step
    dsimp only
    split_ifs with hdollar hpart htag
    · refine h.stay (by simp) (fun _ => ?_) (by simp)
      rw [hdollar]
      decide
    all_goals exact h.inside (by simp) rfl (by simp)
  | dollarDone tag text => exact h.next (by simp) fun _ => h.opens rfl
  | dash =>
    unfold SqlLexer.step
    dsimp only
    split_ifs with hc
    · exact h.inside (by simp) rfl (by simp)
    · exact h.next (by simp) fun _ => h.opens rfl
  | slash =>
    unfold SqlLexer.step
    dsimp only
    split_ifs with hc
    · exact h.inside (by simp) rfl (by simp)
    · exact h.next (by simp) fun _ => h.opens rfl
  | line =>
    unfold SqlLexer.step
    dsimp only
    split_ifs with hc
    · exact h.stay (by simp) (fun _ => bound_of_isNewline hc) (by simp)
    · exact h.inside (by simp) rfl (by simp)
  | block n =>
    unfold SqlLexer.step
    dsimp only
    split_ifs <;> exact h.inside (by simp) rfl (by simp)
  | blockStar n =>
    unfold SqlLexer.step
    dsimp only
    split_ifs with hc hn hstar
    · refine h.stay (by simp) (fun _ => ?_) (by simp)
      rw [hc]
      decide
    all_goals exact h.inside (by simp) rfl (by simp)
  | blockSlash n =>
    unfold SqlLexer.step
    dsimp only
    split_ifs <;> exact h.inside (by simp) rfl (by simp)

end Tracks

theorem tracks (s : List Char) : Tracks s (modeAfter .plain s) (emitted .plain s) := by
  induction s using List.reverseRecOn with
  | nil =>
    refine ⟨?_, ?_, ?_, ?_⟩ <;> simp [emitted, modeAfter, Bound, Mode.opensWord]
  | append_singleton s c ih =>
    rw [modeAfter_append, emitted_append]
    -- the last character is one step of the lexer
    have hstep := ih.step c
    rw [emitted, emitted, List.append_nil]
    exact hstep

theorem word_of_lex {s w : List Char} (h : .word w ∈ lex s) : ∃ before after,
    s = before ++ w ++ after ∧ Bound before ∧ ∀ c ∈ after.head?, identCont c = false := by
  unfold lex at h
  rw [lexFrom_eq] at h
  rcases List.mem_append.mp h with h | h
  · obtain ⟨before, c, after, hs, hbefore, hc⟩ := (tracks s).words w h
    refine ⟨before, c :: after, hs, hbefore, fun d hd => ?_⟩
    rw [← Option.some.inj hd]
    exact hc
  · obtain ⟨before, hs, hbefore⟩ := (tracks s).pending w (word_mem_flush.mp h)
    exact ⟨before, [], by rw [hs, List.append_nil], hbefore, by simp⟩

/-- The character begins another token. -/
def begins : Mode → Char → Bool
  | .plain, _ | .gap _, _ | .dollarDone _ _, _ => true
  | .word text, c => !wordCont text c
  | .number text, c => !numberCont text c
  | .quoteEnd quote _, c => c != quote
  | .escapeEnd _ _, c => c != '\''
  | .dollar tag, c => !(c == '$' || tagCont tag c || (c == '\'' && isEscapeMark tag))
  | .dash, c | .gapDash _, c => c != '-'
  | .slash, c => c != '*'
  | _, _ => false

theorem flush_of_not_closed {m : Mode} (h : m.closed ≠ true) : flush m = [] := by
  cases m with
  | inQuotes | inEscape | escaped | gapLine | inDollar | dollarEnd | line | block | blockStar
  | blockSlash => rfl
  | _ => exact absurd rfl h

theorem step_of_begins {m : Mode} {c : Char} (h : begins m c = true) :
    step m c = (flush m ++ (opens m c).1, (opens m c).2) := by
  cases m with
  | plain | gap | dollarDone => rfl
  | word text => exact step_word (by simpa [begins] using h)
  | number text =>
    have hc : numberCont text c = false := by simpa [begins] using h
    rw [step, hc, if_neg Bool.false_ne_true]
  | quoteEnd quote value =>
    have hc : c ≠ quote := by simpa [begins] using h
    rw [step, if_neg hc]
  | escapeEnd stray text =>
    have hc : c ≠ '\'' := by simpa [begins] using h
    rw [step, if_neg hc]
  | dollar tag =>
    simp only [begins, Bool.not_eq_true', Bool.or_eq_false_iff, beq_eq_false_iff_ne,
      Bool.and_eq_false_iff] at h
    obtain ⟨⟨hdollar, htag⟩, hmark⟩ := h
    rw [step, if_neg hdollar, htag, if_neg Bool.false_ne_true, if_neg]
    rintro ⟨hquote, hescape⟩
    rcases hmark with hne | hno
    · exact hne hquote
    · rw [hescape] at hno
      cases hno
  | dash | gapDash =>
    have hc : c ≠ '-' := by simpa [begins] using h
    rw [step, if_neg hc]
  | slash =>
    have hc : c ≠ '*' := by simpa [begins] using h
    rw [step, if_neg hc]
  | inQuotes | inEscape | escaped | gapLine | inDollar | dollarEnd | line | block | blockStar
  | blockSlash => cases h

theorem step_of_not_begins {m : Mode} {c : Char} (h : begins m c = false) :
    (step m c).1 = [] := by
  cases m with
  | plain | gap | dollarDone => cases h
  | word text =>
    have hc : wordCont text c = true := by simpa [begins] using h
    unfold wordCont at hc
    simp only [Bool.or_eq_true, Bool.and_eq_true, beq_iff_eq] at hc
    unfold step
    dsimp only
    split_ifs with hident hquote
    · rfl
    · rfl
    · exact absurd (hc.resolve_left hident) hquote
  | number text =>
    have hc : numberCont text c = true := by simpa [begins] using h
    rw [step, if_pos hc]
  | quoteEnd quote value =>
    have hc : c = quote := by simpa [begins] using h
    rw [step, if_pos hc]
  | escapeEnd stray text =>
    have hc : c = '\'' := by simpa [begins] using h
    rw [step, if_pos hc]
  | dollar tag =>
    simp only [begins, Bool.not_eq_false', Bool.or_eq_true, beq_iff_eq, Bool.and_eq_true] at h
    unfold step
    dsimp only
    split_ifs with hdollar htag hquote
    · rfl
    · rfl
    · rfl
    · tauto
  | dash | gapDash =>
    have hc : c = '-' := by simpa [begins] using h
    rw [step, if_pos hc]
  | slash =>
    have hc : c = '*' := by simpa [begins] using h
    rw [step, if_pos hc]
  | inQuotes | inEscape | escaped | gapLine | inDollar | dollarEnd | line | block | blockStar
  | blockSlash =>
    unfold step
    dsimp only
    try split_ifs <;> rfl

/-- The tokens of a text of marked characters, each with the mark of its first character.  The first
argument is the mark of the token that the lexer is in. -/
def lexMarked : Bool → Mode → List (Char × Bool) → List (Token × Bool)
  | b, m, [] => (flush m).map fun token => (token, b)
  | b, m, (c, mark) :: s =>
    if begins m c then
      (flush m).map (fun token => (token, b)) ++ (opens m c).1.map (fun token => (token, mark)) ++
        lexMarked mark (opens m c).2 s
    else lexMarked b (step m c).2 s

end SqlLexer
