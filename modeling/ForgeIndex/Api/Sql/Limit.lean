import ForgeIndex.Api.Sql.Keywords
import ForgeIndex.Lib.AsciiCase
import ForgeIndex.Lib.SqlLexer

/-!
# The limit of an accepted query

`enforce_limit` looks for the word `LIMIT` in the characters of the query.  The query is bounded if
the tokens of its text have a `LIMIT` clause outside of all parentheses.
-/

namespace ForgeIndex

open Text SqlLexer

namespace Sql

/-- A word without quotes, up to ASCII case. -/
def isWord (keyword : String) : Token → Bool
  | .word text => text.map Char.toUpper == keyword.toList
  | _ => false

/-- A digit of a base up to sixteen. -/
def digitOf (base : ℕ) (c : Char) : Option ℕ :=
  let d := "0123456789abcdef".toList.idxOf c.toLower
  if d < base then some d else none

/-- The digits are read behind the value `n`; an underscore may stand before each of them. -/
def digitsFrom (base : ℕ) : ℕ → List Char → Option ℕ
  | n, [] => some n
  | n, '_' :: c :: s => (digitOf base c).bind fun d => digitsFrom base (n * base + d) s
  | n, c :: s => (digitOf base c).bind fun d => digitsFrom base (n * base + d) s

/-- The value of an integer constant, which is decimal, hexadecimal, octal or binary. -/
def integerValue : List Char → Option ℕ
  | [] => none
  | '0' :: mark :: c :: s =>
    if mark.toLower = 'x' then digitsFrom 16 0 (c :: s)
    else if mark.toLower = 'o' then digitsFrom 8 0 (c :: s)
    else if mark.toLower = 'b' then digitsFrom 2 0 (c :: s)
    else digitsFrom 10 0 ('0' :: mark :: c :: s)
  | text => digitsFrom 10 0 text

/-- An integer literal of at most 1000. -/
def smallInteger (text : List Char) : Bool := (integerValue text).any fun n => n ≤ 1000

example : integerValue "0x3_E8".toList = some 1000 ∧ integerValue "1_000_".toList = none := by decide

/-- The argument of a `LIMIT` clause is complete: the query ends, or another clause follows. -/
def endsClause : List Token → Bool
  | [] => true
  | tok :: _ => isWord "OFFSET" tok || isWord "FOR" tok

/-- The tokens after `LIMIT` begin with a small integer and nothing that goes on with it. -/
def boundedArgument : List Token → Bool
  | .number text :: rest => smallInteger text && endsClause rest
  | _ => false

/-- The open parentheses after a token. -/
def depthStep (depth : ℕ) : Token → ℕ
  | .symbol c => if c = '(' then depth + 1 else if c = ')' then depth - 1 else depth
  | _ => depth

def depthAfter (depth : ℕ) (tokens : List Token) : ℕ := tokens.foldl depthStep depth

/-- A `LIMIT` clause with a small integer stands outside of all parentheses. -/
def limitedAt : ℕ → List Token → Bool
  | _, [] => false
  | depth, tok :: rest =>
    (depth == 0 && isWord "LIMIT" tok && boundedArgument rest) ||
      limitedAt (depthStep depth tok) rest

/-- The outermost level of the text has a `LIMIT` clause with an integer literal of at most 1000. -/
def HasOuterLimit (text : List Char) : Prop := limitedAt 0 (lex text) = true

instance (text : List Char) : Decidable (HasOuterLimit text) :=
  inferInstanceAs (Decidable (_ = true))

theorem depthAfter_append (depth : ℕ) (a b : List Token) :
    depthAfter depth (a ++ b) = depthAfter (depthAfter depth a) b := List.foldl_append

theorem limitedAt_append_iff {depth : ℕ} {a b : List Token} :
    limitedAt depth (a ++ b) = true ↔
      (∃ pre tok mid, a = pre ++ tok :: mid ∧ isWord "LIMIT" tok = true ∧
        depthAfter depth pre = 0 ∧ boundedArgument (mid ++ b) = true) ∨
      limitedAt (depthAfter depth a) b = true := by
  induction a generalizing depth with
  | nil => simp [depthAfter]
  | cons t a ih =>
    rw [List.cons_append, limitedAt, Bool.or_eq_true, ih]
    constructor
    · rintro (h | ⟨pre, tok, mid, rfl, hword, hdepth, hargument⟩ | h)
      · simp only [Bool.and_eq_true, beq_iff_eq] at h
        exact .inl ⟨[], t, a, rfl, h.1.2, h.1.1, h.2⟩
      · exact .inl ⟨t :: pre, tok, mid, rfl, hword, hdepth, hargument⟩
      · exact .inr h
    · rintro (⟨pre, tok, mid, heq, hword, hdepth, hargument⟩ | h)
      · cases pre with
        | nil =>
          obtain ⟨rfl, rfl⟩ := List.cons.inj heq
          left
          rw [hword, hargument]
          simpa [depthAfter] using hdepth
        | cons u pre =>
          obtain ⟨rfl, rfl⟩ := List.cons.inj heq
          exact .inr (.inl ⟨pre, tok, mid, rfl, hword, hdepth, hargument⟩)
      · exact .inr (.inr h)

theorem limitedAt_of_behind {depth : ℕ} {a b : List Token}
    (h : limitedAt (depthAfter depth a) b = true) : limitedAt depth (a ++ b) = true :=
  limitedAt_append_iff.mpr (.inr h)

theorem limitedAt_append {depth : ℕ} {a b : List Token}
    (h : ∀ tok ∈ a, isWord "LIMIT" tok = false) :
    limitedAt depth (a ++ b) = limitedAt (depthAfter depth a) b := by
  rw [Bool.eq_iff_iff, limitedAt_append_iff, or_iff_right]
  rintro ⟨pre, tok, mid, rfl, hword, -⟩
  rw [h tok (by simp)] at hword
  cases hword

theorem depthAfter_flush (depth : ℕ) (m : Mode) : depthAfter depth (flush m) = depth := by
  cases m with
  | quoteEnd quote value =>
    show depthAfter depth [quoteToken quote value] = depth
    unfold quoteToken
    split_ifs <;> rfl
  | escapeEnd stray text => cases stray <;> rfl
  | _ => rfl

theorem isWord_iff {keyword : String} {tok : Token} :
    isWord keyword tok = true ↔ ∃ w, tok = .word w ∧ w.map Char.toUpper = keyword.toList := by
  cases tok <;> simp [isWord]

/-- The parts of a text around the number that is clamped. -/
structure Clamped where
  upTo : List Char
  gap : List Char
  behind : List Char
  deriving DecidableEq, Repr

/-- The text with the number `MAX_LIMIT`. -/
def Clamped.text (p : Clamped) : List Char := p.upTo ++ p.gap ++ "1000".toList ++ p.behind

section Limit

variable (tables : CaseTables)

/-- Where `enforce_limit` finds the word `LIMIT` in the upper-cased copy. -/
def limitIndex (sql : List Char) : Option ℕ :=
  keywordIndex (tables.toUppercase sql) "LIMIT".toList

/-- The parts that `enforce_limit` puts together around `MAX_LIMIT`, when it clamps a number. -/
def clampParts (sql : List Char) : Option Clamped :=
  (limitIndex tables sql).bind fun i =>
    (splitAtByte (byteLength ((tables.toUppercase sql).take i) + 5) sql).bind fun parts =>
      (limitArgument (trimStart parts.2)).bind fun arg =>
        if maxLimit < arg.1 then
          some ⟨parts.1, parts.2.takeWhile isWhitespace, (trimStart parts.2).drop arg.2⟩
        else none

/-- The number is the argument of a `LIMIT` clause: the word before it is `LIMIT`, outside of
strings, comments and parentheses, and nothing goes on with the number. -/
structure ClampsClause (p : Clamped) : Prop where
  keyword : ∃ w, modeAfter .plain p.upTo = .word w ∧ isWord "LIMIT" (.word w) = true
  outer : depthAfter 0 (emitted .plain p.upTo) = 0
  gap_ne : p.gap ≠ []
  gap_spaces : ∀ c ∈ p.gap, isSpace c = true
  apart : ∀ c ∈ p.behind.head?, isSpace c = true
  complete : endsClause (lex p.behind) = true

/-- The text behind the number that is clamped has a `LIMIT` clause of its own. -/
def LimitedBehind (p : Clamped) : Prop :=
  limitedAt (depthAfter 0 (emitted .plain (p.upTo ++ p.gap)))
    (lexFrom (modeAfter .plain (p.upTo ++ p.gap)) ("1000".toList ++ p.behind)) = true

/-- A `LIMIT` clause begins in the tokens before the word that the scan found.  That takes a character
whose upper-case form has another length, so that the scan is off its place. -/
def LimitedBefore (p : Clamped) : Prop :=
  ∃ pre tok mid, emitted .plain p.upTo = pre ++ tok :: mid ∧ isWord "LIMIT" tok = true ∧
    depthAfter 0 pre = 0 ∧ boundedArgument
      (mid ++ lexFrom (modeAfter .plain p.upTo) (p.gap ++ ("1000".toList ++ p.behind))) = true

/-- The text up to the end of the word `LIMIT` that the scan finds, and the text behind it. -/
def limitParts (sql : List Char) : Option (List Char × List Char) :=
  (limitIndex tables sql).bind fun i =>
    splitAtByte (byteLength ((tables.toUppercase sql).take i) + 5) sql

/-- A number is left as it is: the word that the scan finds (or the next token, if that word is in a
comment) is `LIMIT`, outside of parentheses, and a small integer follows; or a later token begins
such a clause, or an earlier one, if the scan is off its place. -/
inductive KeepsClause (upTo behind : List Char) : Prop
  | found {w : List Char} {rest : List Token}
      (htokens : lexFrom (modeAfter .plain upTo) behind = .word w :: rest)
      (hkeyword : isWord "LIMIT" (.word w) = true) (houter : depthAfter 0 (emitted .plain upTo) = 0)
      (hargument : boundedArgument rest = true)
  | later {tok : Token} {rest : List Token}
      (htokens : lexFrom (modeAfter .plain upTo) behind = tok :: rest)
      (hlater : limitedAt (depthStep (depthAfter 0 (emitted .plain upTo)) tok) rest = true)
  | earlier {pre mid : List Token} {tok : Token} (htokens : emitted .plain upTo = pre ++ tok :: mid)
      (hkeyword : isWord "LIMIT" tok = true) (houter : depthAfter 0 pre = 0)
      (hargument : boundedArgument (mid ++ lexFrom (modeAfter .plain upTo) behind) = true)

/-- The limit step leaves a bounded query: without the word `LIMIT` the query ends outside of
strings, comments and parentheses; where the number stays, the word found begins a clause or
another one does; and a number is clamped in such a clause, or next to one. -/
def Guarded (sql : List Char) : Prop :=
  match limitParts tables sql, clampParts tables sql with
  | none, _ =>
    (modeAfter .plain sql).closed = true ∧ depthAfter 0 (emitted .plain sql) = 0
  | some parts, none => KeepsClause parts.1 parts.2
  | some _, some p => ClampsClause p ∨ LimitedBehind p ∨ LimitedBefore p

variable {tables}

theorem enforceLimit_cases {sql limited : List Char} (h : enforceLimit tables sql = some limited) :
    (limitIndex tables sql = none ∧ limitParts tables sql = none ∧
        limited = sql ++ " LIMIT 1000".toList) ∨
      (∃ parts, limitParts tables sql = some parts ∧ clampParts tables sql = none ∧ limited = sql) ∨
      ∃ parts p, limitParts tables sql = some parts ∧ clampParts tables sql = some p ∧
        limited = p.text := by
  unfold enforceLimit findKeywordPos at h
  unfold clampParts limitParts
  unfold limitIndex
  cases hindex : keywordIndex (tables.toUppercase sql) "LIMIT".toList with
  | none =>
    rw [hindex] at h
    cases h
    exact .inl ⟨rfl, rfl, rfl⟩
  | some i =>
    right
    rw [hindex] at h
    obtain ⟨parts, hparts, h⟩ := Option.map_eq_some_iff.mp h
    rw [Option.bind_some, Option.bind_some, hparts, Option.bind_some]
    cases harg : limitArgument (trimStart parts.2) with
    | none =>
      rw [harg] at h
      exact .inl ⟨parts, rfl, rfl, h.symm⟩
    | some arg =>
      rw [harg] at h
      dsimp only at h
      rw [Option.bind_some]
      split_ifs at h ⊢ with hn
      · exact .inr ⟨parts, _, rfl, rfl, h.symm⟩
      · exact .inl ⟨parts, rfl, rfl, h.symm⟩

theorem boundary_of_bound {c : Char} (h : identStart c = false ∧ c.isDigit = false) :
    Boundary c := by
  obtain ⟨hstart, hdigit⟩ := h
  unfold identStart at hstart
  simp only [Bool.or_eq_false_iff, decide_eq_false_iff_not, not_le] at hstart
  refine ⟨?_, hstart.2⟩
  unfold wordByte Char.isAlphanum
  rw [hstart.1.1, hdigit, hstart.1.2]
  rfl

theorem boundary_of_identCont {c : Char} (h : identCont c = false) : Boundary c := by
  unfold identCont at h
  simp only [Bool.or_eq_false_iff] at h
  exact boundary_of_bound h.1

theorem standsAt_of_isWord {before w after : List Char} {keyword : String}
    (hword : isWord keyword (.word w) = true) (hascii : ∀ c ∈ keyword.toList, c.toNat < 128)
    (hbefore : Bound before) (hafter : ∀ c ∈ after.head?, identCont c = false) :
    StandsAt (tables.toUppercase (before ++ w ++ after)) keyword.toList
      (tables.toUppercase before).length :=
  standsAt_of_word tables (by simpa [isWord] using hword) hascii
    (fun c hc => boundary_of_bound (hbefore c hc))
    fun c hc => boundary_of_identCont (hafter c hc)

theorem limit_ascii : ∀ c ∈ "LIMIT".toList, c.toNat < 128 :=
  List.all_iff_forall_prop.mp (by decide)

theorem limit_spec (u : List Char) :
    match keywordIndex u "LIMIT".toList with
    | some i => StandsAt u "LIMIT".toList i ∧ ∀ j < i, ¬StandsAt u "LIMIT".toList j
    | none => ∀ j, ¬StandsAt u "LIMIT".toList j :=
  keywordIndex_spec (by decide) (List.all_eq_true.mp (by decide))

theorem isWord_lex_of_none {sql : List Char} (h : limitIndex tables sql = none) :
    ∀ tok ∈ lex sql, isWord "LIMIT" tok = false := by
  intro tok htok
  rw [Bool.eq_false_iff]
  intro hword
  obtain ⟨w, rfl, -⟩ := isWord_iff.mp hword
  obtain ⟨before, after, hsql, hbefore, hafter⟩ := word_of_lex htok
  have hspec := limit_spec (tables.toUppercase sql)
  unfold limitIndex at h
  rw [h] at hspec
  apply hspec (tables.toUppercase before).length
  rw [hsql]
  exact standsAt_of_isWord hword limit_ascii hbefore hafter

/-- The tokens of the clause that is appended, unless it is read as a part of a quote or a
comment. -/
theorem lexFrom_limit {m : Mode}
    (hquote : ∀ q v, m = .inQuotes q v ∨ m = .quoteEnd q v → q = '\'' ∨ q = '"') :
    lexFrom m " LIMIT 1000".toList =
      if m.closed then flush m ++ [.word "LIMIT".toList, .number "1000".toList] else [] := by
  by_cases hclosed : m.closed = true
  · rw [if_pos hclosed]
    show (step m ' ').1 ++ lexFrom (step m ' ').2 "LIMIT 1000".toList = _
    rw [step_space hclosed (by decide) fun q v h => hquote q v (.inr h)]
    rcases afterSpace_cases m ' ' with hplain | ⟨newline, hgap⟩
    · rw [hplain]
      rfl
    · rw [hgap]
      rfl
  · rw [if_neg hclosed]
    cases m with
    | inQuotes quote value =>
      rcases hquote quote value (.inl rfl) with rfl | rfl <;> rfl
    | inEscape | escaped | gapLine | inDollar | dollarEnd | line | block | blockStar
    | blockSlash => rfl
    | _ => exact absurd rfl hclosed

theorem hasOuterLimit_append_iff {sql : List Char} (h : limitIndex tables sql = none) :
    HasOuterLimit (sql ++ " LIMIT 1000".toList) ↔
      (modeAfter .plain sql).closed = true ∧ depthAfter 0 (emitted .plain sql) = 0 := by
  have hnone := isWord_lex_of_none h
  unfold lex at hnone
  rw [lexFrom_eq] at hnone
  unfold HasOuterLimit lex
  rw [lexFrom_append, lexFrom_limit (tracks sql).quotes,
    limitedAt_append fun tok htok => hnone tok (List.mem_append_left _ htok)]
  by_cases hclosed : (modeAfter .plain sql).closed = true
  · rw [if_pos hclosed, limitedAt_append fun tok htok => hnone tok (List.mem_append_right _ htok),
      depthAfter_flush]
    have htail : ∀ d, limitedAt d [.word "LIMIT".toList, .number "1000".toList] = (d == 0) := by
      intro d
      have hargument : boundedArgument [.number "1000".toList] = true := by decide
      have hword : isWord "LIMIT" (.word "LIMIT".toList) = true := by decide
      rw [limitedAt, hargument, hword, limitedAt, limitedAt]
      simp [isWord]
    rw [htail]
    simp [hclosed]
  · rw [if_neg hclosed]
    simp [hclosed, limitedAt]

theorem isWhitespace_cases {c : Char} (h : isWhitespace c = true) :
    isSpace c = true ∨ 128 ≤ c.toNat := by
  unfold isWhitespace at h
  unfold isSpace
  simp only [Bool.or_eq_true, Bool.and_eq_true, decide_eq_true_eq, beq_iff_eq] at h ⊢
  by_cases hc : 128 ≤ c.toNat
  · exact .inr hc
  · by_cases h32 : c.toNat = 32
    · left
      left
      rw [← Char.ofNat_toNat c, h32]
    · omega

theorem wordByte_of_isWhitespace {c : Char} (h : isWhitespace c = true) : wordByte c = false := by
  rcases isWhitespace_cases h with hspace | hc
  · rcases isSpace_cases hspace with rfl | rfl | rfl | rfl | rfl | rfl <;> decide
  · rw [Bool.eq_false_iff]
    intro hword
    have := lt_of_wordByte hword
    omega

theorem start_of_wide {c : Char} (h : 128 ≤ c.toNat) : start c = ([], .word [c]) := by
  apply start_of_identStart
  unfold identStart
  simp [h]

theorem not_limit_of_step {m : Mode} {c : Char} {w : List Char} (hspace : isWhitespace c = true)
    (hw : (step m c).2 = .word w) : isWord "LIMIT" (.word w) = false := by
  obtain ⟨v, rfl⟩ := word_of_step hw
  rw [Bool.eq_false_iff]
  intro hword
  have hup : (v ++ [c]).map Char.toUpper = "LIMI".toList ++ ['T'] := by
    simpa [isWord] using hword
  rw [List.map_append, List.map_singleton] at hup
  have hlast := (List.append_inj' hup rfl).2
  rw [toUpper_eq_self (wordByte_of_isWhitespace hspace)] at hlast
  rw [(List.cons.inj hlast).1] at hspace
  revert hspace
  decide

theorem emitted_gap {m : Mode} {gap : List Char}
    (hm : ∀ w, m = .word w → isWord "LIMIT" (.word w) = false)
    (hgap : ∀ c ∈ gap, isWhitespace c = true) :
    ∀ tok ∈ emitted m gap, isWord "LIMIT" tok = false := by
  induction gap generalizing m with
  | nil => simp [emitted]
  | cons c gap ih =>
    intro tok htok
    rw [emitted] at htok
    rcases List.mem_append.mp htok with htok | htok
    · rw [Bool.eq_false_iff]
      intro hword
      obtain ⟨w, rfl, -⟩ := isWord_iff.mp hword
      rw [hm w (word_of_mem_step htok)] at hword
      cases hword
    · exact ih (fun w hw => not_limit_of_step (hgap c List.mem_cons_self) hw)
        (fun d hd => hgap d (List.mem_cons_of_mem _ hd)) tok htok

theorem lex_maxLimit {s : List Char} (h : ∀ c ∈ s.head?, isSpace c = true) :
    lex ("1000".toList ++ s) = .number "1000".toList :: lex s := by
  refine lexFrom_number (w := ['1']) (v := "000".toList) (by decide) fun c hc => ?_
  rcases isSpace_cases (h c hc) with rfl | rfl | rfl | rfl | rfl | rfl <;> decide

/-- Between `LIMIT` and a number that bounds the query there is only white space of SQL. -/
theorem spaces_of_boundedArgument {gap s : List Char} (hgap : ∀ c ∈ gap, isWhitespace c = true)
    (h : boundedArgument (lex (gap ++ s)) = true) : ∀ c ∈ gap, isSpace c = true := by
  induction gap with
  | nil => simp
  | cons c gap ih =>
    rw [List.cons_append] at h
    rcases isWhitespace_cases (hgap c List.mem_cons_self) with hspace | hwide
    · rw [lex_space hspace] at h
      have := ih (fun d hd => hgap d (List.mem_cons_of_mem _ hd)) h
      simpa [hspace] using this
    · have hmark (v : List Char) : isEscapeMark ([c] ++ v) = false := by
        have he : c ≠ 'e' ∧ c ≠ 'E' := by
          constructor <;>
            · rintro rfl
              revert hwide
              decide
        simp [isEscapeMark, he.1, he.2]
      -- white space that SQL does not know begins a word, and a word is no number
      obtain ⟨v, rest, hlex⟩ := lexFrom_word_head hmark (gap ++ s)
      rw [lex_cons, start_of_wide hwide, List.nil_append, hlex] at h
      cases h

theorem digitsFrom_of_wide {c : Char} (h : 128 ≤ c.toNat) {base : ℕ} (hbase : base ≤ 16) (n : ℕ)
    (s : List Char) : digitsFrom base n (c :: s) = none := by
  have hnone : digitOf base c = none := by
    have hascii : ∀ d ∈ "0123456789abcdef".toList, d.toNat < 128 :=
      List.all_iff_forall_prop.mp (by decide)
    have hnot : c ∉ "0123456789abcdef".toList := fun hc => by
      have := hascii c hc
      omega
    unfold digitOf
    dsimp only
    rw [AsciiCase.toLower_of_not_upper (by omega), List.idxOf_of_notMem hnot, if_neg]
    exact not_lt.mpr hbase
  unfold digitsFrom
  split
  · rename_i heq
    cases heq
  · rename_i heq
    obtain ⟨rfl, -⟩ := List.cons.inj heq
    exact absurd h (by decide)
  · rename_i heq
    obtain ⟨rfl, -⟩ := List.cons.inj heq
    rw [hnone]
    rfl

theorem apart_of_boundedArgument {s : List Char} (hs : ∀ c ∈ s.head?, isWhitespace c = true)
    (h : boundedArgument (lex ("1000".toList ++ s)) = true) : ∀ c ∈ s.head?, isSpace c = true := by
  cases s with
  | nil => simp
  | cons c s =>
    rcases isWhitespace_cases (hs c rfl) with hspace | hwide
    · simpa using hspace
    · exfalso
      -- such white space goes on with the number, which is then no integer
      have hcont : numberCont "1000".toList c = true := by
        unfold numberCont identCont identStart
        simp [hwide]
      obtain ⟨v, rest, hlex⟩ := lexFrom_number_head ("1000".toList ++ [c]) s
      have hall : lex ("1000".toList ++ c :: s) =
          (step (.number "1000".toList) c).1 ++ lexFrom (step (.number "1000".toList) c).2 s := rfl
      rw [hall, step, if_pos hcont, List.nil_append, hlex, boundedArgument, Bool.and_eq_true] at h
      have hvalue : integerValue ("1000".toList ++ [c] ++ v) = digitsFrom 10 1000 (c :: v) := rfl
      have hsmall := h.1
      unfold smallInteger at hsmall
      rw [hvalue, digitsFrom_of_wide hwide (by decide)] at hsmall
      cases hsmall

section Clamp

variable {p : Clamped}

theorem hasOuterLimit_of_limitedBehind (h : LimitedBehind p) : HasOuterLimit p.text := by
  unfold HasOuterLimit Clamped.text lex
  rw [List.append_assoc, lexFrom_append]
  exact limitedAt_of_behind h

theorem lexFrom_keyword {w : List Char} {c : Char} (hc : isSpace c = true) (s : List Char) :
    lexFrom (.word w) (c :: s) = .word w :: lex s := by
  rw [lexFrom, step_space rfl hc (by simp)]
  rfl

theorem limitedAt_keyword {w : List Char} (hword : isWord "LIMIT" (.word w) = true) (depth : ℕ)
    (rest : List Token) : limitedAt depth (.word w :: rest) =
      ((depth == 0 && boundedArgument rest) || limitedAt depth rest) := by
  rw [limitedAt, hword, Bool.and_true]
  rfl

theorem hasOuterLimit_of_clampsClause (h : ClampsClause p) : HasOuterLimit p.text := by
  obtain ⟨⟨w, hmode, hword⟩, houter, hne, hspaces, hapart, hcomplete⟩ := h
  obtain ⟨c, gap, hgap⟩ := List.exists_cons_of_ne_nil hne
  unfold HasOuterLimit Clamped.text lex
  rw [List.append_assoc, List.append_assoc, lexFrom_append]
  apply limitedAt_of_behind
  rw [houter, hmode, hgap, List.cons_append, lexFrom_keyword (hspaces c (by simp [hgap])),
    lex_spaces fun d hd => hspaces d (by simp [hgap, hd]), lex_maxLimit hapart,
    limitedAt_keyword hword, Bool.or_eq_true]
  left
  rw [boundedArgument, hcomplete]
  decide

theorem hasOuterLimit_of_limitedBefore (h : LimitedBefore p) : HasOuterLimit p.text := by
  unfold HasOuterLimit Clamped.text lex
  rw [List.append_assoc, List.append_assoc, lexFrom_append]
  exact limitedAt_append_iff.mpr (.inl h)

/-- The number that is clamped is the argument of the clause, or the clause is next to it. -/
theorem clamps_of_hasOuterLimit (hgap : ∀ c ∈ p.gap, isWhitespace c = true)
    (hbehind : ∀ c ∈ p.behind.head?, isWhitespace c = true) (h : HasOuterLimit p.text) :
    ClampsClause p ∨ LimitedBehind p ∨ LimitedBefore p := by
  unfold LimitedBehind
  rw [emitted_append, modeAfter_append, depthAfter_append]
  unfold HasOuterLimit Clamped.text lex at h
  rw [List.append_assoc, List.append_assoc, lexFrom_append, limitedAt_append_iff] at h
  rcases h with h | h
  · exact .inr (.inr h)
  by_cases hkeyword : ∃ w c gap, modeAfter .plain p.upTo = .word w ∧
      isWord "LIMIT" (.word w) = true ∧ p.gap = c :: gap ∧ isSpace c = true
  · obtain ⟨w, c, gap, hmode, hword, hgap', hc⟩ := hkeyword
    rw [hgap'] at hgap
    have hwhite : ∀ d ∈ gap, isWhitespace d = true := fun d hd =>
      hgap d (List.mem_cons_of_mem _ hd)
    rw [hmode, hgap', List.cons_append, lexFrom_keyword hc, limitedAt_keyword hword,
      Bool.or_eq_true] at h
    rcases h with h | h
    · -- the clause begins with the word before the number
      left
      rw [Bool.and_eq_true, beq_iff_eq] at h
      obtain ⟨houter, hargument⟩ := h
      have hspaces := spaces_of_boundedArgument hwhite hargument
      rw [lex_spaces hspaces] at hargument
      have hapart := apart_of_boundedArgument hbehind hargument
      rw [lex_maxLimit hapart, boundedArgument, Bool.and_eq_true] at hargument
      refine ⟨⟨w, hmode, hword⟩, houter, by simp [hgap'], ?_, hapart, hargument.2⟩
      rw [hgap']
      simpa [hc] using hspaces
    · -- it begins behind that word
      right
      left
      unfold lex at h
      rw [lexFrom_append, limitedAt_append (emitted_gap (by simp) hwhite)] at h
      rw [hmode, hgap', modeAfter, emitted, step_space rfl hc (by simp)]
      exact h
  · right
    left
    rw [lexFrom_append, limitedAt_append] at h
    · exact h
    · cases hp : p.gap with
      | nil => simp [emitted]
      | cons c gap =>
        rw [hp] at hgap
        by_cases hspace : isSpace c = true
        · rw [← hp]
          apply emitted_gap _ (by rw [hp]; exact hgap)
          intro w hw
          rw [Bool.eq_false_iff]
          intro hword
          exact hkeyword ⟨w, c, gap, hw, hword, hp, hspace⟩
        · -- the white space goes on with the word
          have hwide := (isWhitespace_cases (hgap c List.mem_cons_self)).resolve_left hspace
          have hident : identCont c = true := by
            unfold identCont identStart
            simp [hwide]
          by_cases hmode : ∃ w, modeAfter .plain p.upTo = .word w
          · obtain ⟨w, hw⟩ := hmode
            have hstep : step (.word w) c = ([], .word (w ++ [c])) := by
              rw [step, if_pos hident]
            rw [hw, emitted, hstep, List.nil_append]
            refine emitted_gap (fun v hv => ?_) fun d hd => hgap d (List.mem_cons_of_mem _ hd)
            apply not_limit_of_step (m := .word w) (hgap c List.mem_cons_self)
            rw [hstep, hv]
          · exact emitted_gap (fun w hw => absurd ⟨w, hw⟩ hmode) hgap

theorem whitespace_of_clampParts {sql : List Char} (hp : clampParts tables sql = some p) :
    (∀ c ∈ p.gap, isWhitespace c = true) ∧ ∀ c ∈ p.behind.head?, isWhitespace c = true := by
  unfold clampParts at hp
  obtain ⟨i, -, hp⟩ := Option.bind_eq_some_iff.mp hp
  obtain ⟨parts, -, hp⟩ := Option.bind_eq_some_iff.mp hp
  obtain ⟨arg, harg, hp⟩ := Option.bind_eq_some_iff.mp hp
  split_ifs at hp
  obtain rfl := Option.some.inj hp
  refine ⟨fun c hc => List.mem_takeWhile_imp hc, fun c hc => ?_⟩
  unfold limitArgument at harg
  obtain ⟨w, hw, harg⟩ := Option.bind_eq_some_iff.mp harg
  obtain ⟨n, -, rfl⟩ := Option.map_eq_some_iff.mp harg
  have hstart : ∀ d ∈ (trimStart parts.2).head?, isWhitespace d = false := by
    intro d hd
    have := List.head?_dropWhile_not isWhitespace parts.2
    unfold trimStart at hd
    rw [Option.mem_def.mp hd] at this
    simpa using this
  rw [head?_splitWhitespace hstart hw] at hc
  dsimp only at hc
  have hsplit := List.takeWhile_append_dropWhile (p := fun c => !isWhitespace c)
    (l := trimStart parts.2)
  have hdrop : (trimStart parts.2).drop ((trimStart parts.2).takeWhile
      fun c => !isWhitespace c).length = (trimStart parts.2).dropWhile fun c => !isWhitespace c := by
    conv_lhs =>
      arg 2
      rw [← hsplit]
    rw [List.drop_left]
  rw [hdrop] at hc
  have := List.head?_dropWhile_not (fun c => !isWhitespace c) (trimStart parts.2)
  rw [Option.mem_def.mp hc] at this
  simpa using this

end Clamp

variable (tables) in
/-- No character changes its length in UTF-8 when it is raised to upper case. -/
def Steady (sql : List Char) : Prop :=
  ∀ c ∈ sql, ∃ d, tables.upper c = [d] ∧ d.utf8Size = c.utf8Size

theorem utf8Size_eq_one {c : Char} : c.utf8Size = 1 ↔ c.toNat < 128 := by
  rw [Char.utf8Size_eq_one_iff, UInt32.le_iff_toNat_le]
  exact Nat.lt_succ_iff.symm

theorem byteLength_of_ascii {s : List Char} (h : ∀ c ∈ s, c.toNat < 128) :
    byteLength s = s.length := by
  induction s with
  | nil => rfl
  | cons c s ih =>
    have hc := utf8Size_eq_one.mpr (h c List.mem_cons_self)
    have hs := ih fun d hd => h d (List.mem_cons_of_mem _ hd)
    unfold byteLength at hs ⊢
    rw [List.map_cons, List.sum_cons, hc, hs, List.length_cons]
    omega

theorem steady_of_ascii {sql : List Char} (h : ∀ c ∈ sql, c.toNat < 128) : Steady tables sql := by
  intro c hc
  refine ⟨c.toUpper, tables.upper_ascii c (h c hc), ?_⟩
  rw [utf8Size_eq_one.mpr (h c hc), utf8Size_eq_one.mpr (AsciiCase.toUpper_lt (h c hc))]

namespace Steady

variable {sql a b : List Char}

theorem of_append (h : Steady tables (a ++ b)) : Steady tables a ∧ Steady tables b :=
  ⟨fun c hc => h c (List.mem_append_left _ hc), fun c hc => h c (List.mem_append_right _ hc)⟩

theorem tail {c : Char} (h : Steady tables (c :: sql)) : Steady tables sql :=
  fun d hd => h d (List.mem_cons_of_mem _ hd)

theorem lengths (h : Steady tables sql) : (tables.toUppercase sql).length = sql.length ∧
    byteLength (tables.toUppercase sql) = byteLength sql := by
  induction sql with
  | nil => exact ⟨rfl, rfl⟩
  | cons c sql ih =>
    obtain ⟨d, hd, hsize⟩ := h c List.mem_cons_self
    obtain ⟨hlength, hbytes⟩ := ih h.tail
    have hcons : tables.toUppercase (c :: sql) = d :: tables.toUppercase sql := by
      unfold CaseTables.toUppercase
      rw [List.flatMap_cons, hd]
      rfl
    rw [hcons]
    constructor
    · rw [List.length_cons, List.length_cons, hlength]
    · unfold byteLength at hbytes ⊢
      rw [List.map_cons, List.sum_cons, List.map_cons, List.sum_cons, hbytes, hsize]

/-- A text whose upper-case form begins with an ASCII keyword begins with the keyword in some
spelling. -/
theorem of_prefix {k : List Char} (h : Steady tables sql) (hk : ∀ c ∈ k, c.toNat < 128)
    (hbegins : k <+: tables.toUppercase sql) :
    ∃ w rest, sql = w ++ rest ∧ w.length = k.length ∧ ∀ c ∈ w, c.toNat < 128 := by
  induction k generalizing sql with
  | nil => exact ⟨[], sql, rfl, rfl, by simp⟩
  | cons d k ih =>
    cases sql with
    | nil => simp [CaseTables.toUppercase] at hbegins
    | cons c sql =>
      obtain ⟨e, he, hsize⟩ := h c List.mem_cons_self
      have hcons : tables.toUppercase (c :: sql) = e :: tables.toUppercase sql := by
        unfold CaseTables.toUppercase
        rw [List.flatMap_cons, he]
        rfl
      rw [hcons, List.cons_prefix_cons] at hbegins
      obtain ⟨rfl, hbegins⟩ := hbegins
      obtain ⟨w, rest, rfl, hlength, hw⟩ :=
        ih h.tail (fun x hx => hk x (List.mem_cons_of_mem _ hx)) hbegins
      refine ⟨c :: w, rest, rfl, by simp [hlength], ?_⟩
      intro x hx
      rcases List.mem_cons.mp hx with rfl | hx
      · apply utf8Size_eq_one.mp
        rw [← hsize]
        exact utf8Size_eq_one.mpr (hk d List.mem_cons_self)
      · exact hw x hx

theorem limit_split {i : ℕ} (h : Steady tables sql) (hindex : limitIndex tables sql = some i) :
    ∃ front rest, sql = front ++ rest ∧ front.length = i + 5 ∧
      byteLength front = byteLength ((tables.toUppercase sql).take i) + 5 := by
  have hspec := limit_spec (tables.toUppercase sql)
  unfold limitIndex at hindex
  rw [hindex] at hspec
  have hocc := hspec.1.1
  have hfive : "LIMIT".toList.length = 5 := rfl
  have hinside : i ≤ sql.length := by
    have := hocc.length_le
    rw [List.length_drop, h.lengths.1] at this
    omega
  obtain ⟨hfront, hback⟩ := of_append (a := sql.take i) (b := sql.drop i)
    (by rw [List.take_append_drop]; exact h)
  have hsplit : tables.toUppercase sql =
      tables.toUppercase (sql.take i) ++ tables.toUppercase (sql.drop i) := by
    rw [← toUppercase_append, List.take_append_drop]
  have hlength : (tables.toUppercase (sql.take i)).length = i := by
    rw [hfront.lengths.1, List.length_take]
    omega
  rw [hsplit, List.drop_left' hlength] at hocc
  obtain ⟨w, rest, hdrop, hw, hascii⟩ := hback.of_prefix limit_ascii hocc
  refine ⟨sql.take i ++ w, rest, ?_, ?_, ?_⟩
  · rw [List.append_assoc, ← hdrop, List.take_append_drop]
  · rw [List.length_append, hw, List.length_take]
    omega
  · rw [byteLength_append, byteLength_of_ascii hascii, hw, hsplit, List.take_left' hlength,
      hfront.lengths.2, hfive]

theorem upTo_length {p : Clamped} (h : Steady tables sql) (hp : clampParts tables sql = some p) :
    ∃ i rest, limitIndex tables sql = some i ∧ sql = p.upTo ++ rest ∧ p.upTo.length = i + 5 := by
  unfold clampParts at hp
  obtain ⟨i, hindex, hp⟩ := Option.bind_eq_some_iff.mp hp
  obtain ⟨parts, hparts, hp⟩ := Option.bind_eq_some_iff.mp hp
  obtain ⟨arg, harg, hp⟩ := Option.bind_eq_some_iff.mp hp
  split_ifs at hp
  obtain rfl := Option.some.inj hp
  obtain ⟨front, rest, hsql, hlength, hbytes⟩ := h.limit_split hindex
  rw [splitAtByte_eq_some_iff.mpr ⟨hsql, hbytes⟩] at hparts
  obtain rfl := Option.some.inj hparts
  exact ⟨i, rest, hindex, hsql, hlength⟩

theorem isWord_emitted {p : Clamped} (h : Steady tables sql)
    (hp : clampParts tables sql = some p) :
    ∀ tok ∈ emitted .plain p.upTo, isWord "LIMIT" tok = false := by
  intro tok htok
  rw [Bool.eq_false_iff]
  intro hword
  obtain ⟨w, rfl, hup⟩ := isWord_iff.mp hword
  obtain ⟨i, rest, hindex, hsql, hlength⟩ := h.upTo_length hp
  obtain ⟨before, c, after, hupTo, hbefore, hc⟩ := (tracks p.upTo).words w htok
  have hspec := limit_spec (tables.toUppercase sql)
  unfold limitIndex at hindex
  rw [hindex] at hspec
  have hw : w.length = 5 := by
    have := congrArg List.length hup
    rw [List.length_map] at this
    exact this
  rw [hupTo, List.append_assoc] at hsql
  have hsteady : Steady tables before := by
    rw [hsql, List.append_assoc] at h
    exact h.of_append.1
  apply hspec.2 (tables.toUppercase before).length
  · rw [hsteady.lengths.1]
    rw [hupTo] at hlength
    simp only [List.length_append, List.length_cons] at hlength
    omega
  · rw [hsql]
    refine standsAt_of_isWord hword limit_ascii hbefore fun d hd => ?_
    rw [← Option.some.inj hd]
    exact hc

theorem not_limitedBefore {p : Clamped} (h : Steady tables sql)
    (hp : clampParts tables sql = some p) : ¬LimitedBefore p := by
  rintro ⟨pre, tok, mid, hemitted, hword, -⟩
  rw [h.isWord_emitted hp tok (by simp [hemitted])] at hword
  cases hword

end Steady

theorem append_of_limitParts {sql : List Char} {parts : List Char × List Char}
    (h : limitParts tables sql = some parts) : sql = parts.1 ++ parts.2 := by
  obtain ⟨i, -, hsplit⟩ := Option.bind_eq_some_iff.mp h
  exact (splitAtByte_eq_some_iff.mp hsplit).1

theorem hasOuterLimit_keeps_iff (upTo behind : List Char) :
    HasOuterLimit (upTo ++ behind) ↔ KeepsClause upTo behind := by
  unfold HasOuterLimit lex
  rw [lexFrom_append, limitedAt_append_iff]
  constructor
  · rintro (⟨pre, tok, mid, htokens, hkeyword, houter, hargument⟩ | h)
    · exact .earlier htokens hkeyword houter hargument
    · cases htokens : lexFrom (modeAfter .plain upTo) behind with
      | nil =>
        rw [htokens] at h
        cases h
      | cons tok rest =>
        rw [htokens, limitedAt, Bool.or_eq_true] at h
        rcases h with h | h
        · simp only [Bool.and_eq_true, beq_iff_eq] at h
          obtain ⟨w, rfl, -⟩ := isWord_iff.mp h.1.2
          exact .found htokens h.1.2 h.1.1 h.2
        · exact .later htokens h
  · rintro (⟨htokens, hkeyword, houter, hargument⟩ | ⟨htokens, hlater⟩ |
      ⟨htokens, hkeyword, houter, hargument⟩)
    · right
      rw [htokens, limitedAt, houter, hkeyword, hargument]
      rfl
    · right
      rw [htokens, limitedAt, hlater, Bool.or_true]
    · exact .inl ⟨_, _, _, htokens, hkeyword, houter, hargument⟩

theorem hasOuterLimit_enforceLimit {sql limited : List Char}
    (h : enforceLimit tables sql = some limited) : HasOuterLimit limited ↔ Guarded tables sql := by
  unfold Guarded
  rcases enforceLimit_cases h with
    ⟨hindex, hparts, rfl⟩ | ⟨parts, hparts, hp, rfl⟩ | ⟨parts, p, hparts, hp, rfl⟩
  · rw [hparts]
    exact hasOuterLimit_append_iff hindex
  · rw [hparts, hp]
    have hkeeps := hasOuterLimit_keeps_iff parts.1 parts.2
    rw [← append_of_limitParts hparts] at hkeeps
    exact hkeeps
  · rw [hparts, hp]
    obtain ⟨hgap, hbehind⟩ := whitespace_of_clampParts hp
    constructor
    · exact clamps_of_hasOuterLimit hgap hbehind
    · rintro (h | h | h)
      · exact hasOuterLimit_of_clampsClause h
      · exact hasOuterLimit_of_limitedBehind h
      · exact hasOuterLimit_of_limitedBefore h

end Limit

end Sql

end ForgeIndex
