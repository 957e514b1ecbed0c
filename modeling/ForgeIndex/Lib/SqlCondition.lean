import ForgeIndex.Lib.SqlLexer

/-!
# SQL conditions

Texts that can be read on their own: a boundary behind them (a space, a comma, a closing parenthesis
or the end) ends their last token.  Texts of this kind put together by separators are conditions, and
conditions put together by `AND` are a conjunction.
-/

namespace SqlLexer

/-- What follows begins with a space, a comma or a closing parenthesis, if at all. -/
def Boundary (rest : List Char) : Prop := ∀ c ∈ rest.head?, c = ' ' ∨ c = ',' ∨ c = ')'

theorem boundary_nil : Boundary [] := by
  intro c hc
  cases hc

theorem boundary_cons {c : Char} (h : c = ' ' ∨ c = ',' ∨ c = ')') (rest : List Char) :
    Boundary (c :: rest) := by
  intro d hd
  rw [← Option.some.inj hd]
  exact h

theorem Boundary.not_word {rest : List Char} (h : Boundary rest) (w : List Char) :
    ∀ c ∈ rest.head?, wordCont w c = false := by
  intro c hc
  rcases h c hc with rfl | rfl | rfl <;> rfl

theorem Boundary.not_number {rest : List Char} (h : Boundary rest) (w : List Char) :
    ∀ c ∈ rest.head?, numberCont w c = false := by
  intro c hc
  rcases h c hc with rfl | rfl | rfl <;> rfl

theorem Boundary.not_quote {rest : List Char} (h : Boundary rest) {quote : Char}
    (hquote : quote = '\'' ∨ quote = '"') : rest.head? ≠ some quote := by
  intro hc
  rcases h quote hc with rfl | rfl | rfl <;> simp at hquote

/-- Ahead of a boundary the text is read as these tokens. -/
def Lexes (text : List Char) (ts : List Token) : Prop :=
  ∀ rest, Boundary rest → lex (text ++ rest) = ts ++ lex rest

theorem Lexes.lex_eq {text : List Char} {ts : List Token} (h : Lexes text ts) : lex text = ts := by
  have hend := h [] boundary_nil
  rw [List.append_nil] at hend
  rw [hend]
  exact List.append_nil ts

theorem lex_symbol {c : Char} (h : start c = ([.symbol c], .plain)) (rest : List Char) :
    lex (c :: rest) = .symbol c :: lex rest := by
  rw [lex_cons, h]
  rfl

theorem reads_symbol {c : Char} (h : start c = ([.symbol c], .plain)) : Lexes [c] [.symbol c] :=
  fun rest _ => lex_symbol h rest

theorem reads_word {w : List Char} {c : Char} (hstart : start c = ([], .word [c]))
    (hw : w.all identCont = true) : Lexes (c :: w) [.word (c :: w)] := by
  intro rest hrest
  rw [List.cons_append, lex_cons, hstart, List.nil_append]
  exact lexFrom_word (List.all_eq_true.mp hw) (hrest.not_word _)

theorem reads_quoted {name : List Char} (h : '"' ∉ name) :
    Lexes ('"' :: (name ++ ['"'])) [.quoted name] := by
  intro rest hrest
  have hread := readQuoted_doubled (v := name) (hrest.not_quote (.inr rfl))
  rw [doubled_of_not_mem h] at hread
  have htext : '"' :: (name ++ ['"']) ++ rest = '"' :: (name ++ '"' :: rest) := by simp
  rw [htext, lex_quote (.inr rfl), hread]
  rfl

theorem reads_string (v : List Char) :
    Lexes ('\'' :: (doubled '\'' v ++ ['\''])) [.string v] := by
  intro rest hrest
  have hread := readQuoted_doubled (v := v) (hrest.not_quote (.inl rfl))
  have htext : '\'' :: (doubled '\'' v ++ ['\'']) ++ rest =
      '\'' :: (doubled '\'' v ++ '\'' :: rest) := by simp
  rw [htext, lex_quote (.inl rfl), hread]
  rfl

theorem numberRun_fraction {w frac : List Char}
    (h : frac = [] ∨ ∃ ds, frac = '.' :: ds ∧ ∀ c ∈ ds, c.isDigit = true) :
    numberRun w frac = true := by
  rcases h with rfl | ⟨ds, rfl, hds⟩
  · rfl
  · rw [numberRun, numberRun_digits hds, Bool.and_true]
    rfl

theorem numberRun_exponent {w exp : List Char} (hw : ∀ c ∈ w, c.isDigit = true ∨ c = '.')
    (h : exp = [] ∨ ∃ e s ds, exp = e :: s ++ ds ∧ (e = 'e' ∨ e = 'E') ∧
      (s = [] ∨ s = ['+'] ∨ s = ['-']) ∧ ∀ c ∈ ds, c.isDigit = true) :
    numberRun w exp = true := by
  rcases h with rfl | ⟨e, s, ds, rfl, he, hs, hds⟩
  · rfl
  · have hletter : numberCont w e = true := by
      rcases he with rfl | rfl <;> rfl
    have hsign : numberRun (w ++ [e]) s = true := by
      have hlast : (w ++ [e]).getLast? = some 'e' ∨ (w ++ [e]).getLast? = some 'E' := by
        rcases he with rfl | rfl <;> simp
      have hinit : ((w ++ [e]).dropLast.all fun d => d.isDigit || d == '.') = true := by
        rw [List.dropLast_concat, List.all_eq_true]
        intro c hc
        rcases hw c hc with h | h <;> simp [h]
      rcases hs with rfl | rfl | rfl
      · rfl
      · simp only [numberRun, numberCont, hinit]
        rcases hlast with h | h <;> simp [h]
      · simp only [numberRun, numberCont, hinit]
        rcases hlast with h | h <;> simp [h]
    rw [List.cons_append, numberRun, hletter, Bool.true_and, numberRun_append, hsign,
      numberRun_digits hds]
    rfl

theorem reads_unsigned {d : Char} {int frac exp : List Char}
    (hint : ∀ c ∈ d :: int, c.isDigit = true)
    (hfrac : frac = [] ∨ ∃ ds, frac = '.' :: ds ∧ ∀ c ∈ ds, c.isDigit = true)
    (hexp : exp = [] ∨ ∃ e s ds, exp = e :: s ++ ds ∧ (e = 'e' ∨ e = 'E') ∧
      (s = [] ∨ s = ['+'] ∨ s = ['-']) ∧ ∀ c ∈ ds, c.isDigit = true) :
    Lexes (d :: (int ++ frac ++ exp)) [.number (d :: (int ++ frac ++ exp))] := by
  intro rest hrest
  have hd := hint d List.mem_cons_self
  have hpoint : ∀ c ∈ [d] ++ (int ++ frac), c.isDigit = true ∨ c = '.' := by
    intro c hc
    rcases List.mem_append.mp hc with hc | hc
    · exact .inl (hint c (by rw [List.mem_singleton.mp hc]; exact List.mem_cons_self))
    · rcases List.mem_append.mp hc with hc | hc
      · exact .inl (hint c (List.mem_cons_of_mem _ hc))
      · rcases hfrac with rfl | ⟨ds, rfl, hds⟩
        · cases hc
        · rcases List.mem_cons.mp hc with hc | hc
          · exact .inr hc
          · exact .inl (hds c hc)
  have hrun : numberRun [d] (int ++ frac ++ exp) = true := by
    rw [numberRun_append, numberRun_append,
      numberRun_digits fun c hc => hint c (List.mem_cons_of_mem _ hc),
      numberRun_fraction hfrac, numberRun_exponent hpoint hexp]
    rfl
  rw [List.cons_append, lex_cons, start_digit hd, List.nil_append]
  exact lexFrom_number hrun (hrest.not_number _)

theorem lex_minus {c : Char} (h : c ≠ '-') (s : List Char) :
    lex ('-' :: c :: s) = .symbol '-' :: lex (c :: s) := by
  have hstep : step .dash c = ([.symbol '-'] ++ (start c).1, (start c).2) := if_neg h
  show lexFrom .dash (c :: s) = _
  rw [lexFrom, hstep]
  rfl

theorem Lexes.space {a b : List Char} {ts us : List Token} (ha : Lexes a ts) (hb : Lexes b us) :
    Lexes (a ++ ' ' :: b) (ts ++ us) := by
  intro rest hrest
  have hspace : isSpace ' ' = true := rfl
  rw [List.append_assoc, List.cons_append, ha _ (boundary_cons (.inl rfl) _), lex_space hspace,
    hb rest hrest, List.append_assoc]

theorem Lexes.comma {a b : List Char} {ts us : List Token} (ha : Lexes a ts) (hb : Lexes b us) :
    Lexes (a ++ ',' :: ' ' :: b) (ts ++ .symbol ',' :: us) := by
  intro rest hrest
  have hspace : isSpace ' ' = true := rfl
  have hcomma : Boundary (',' :: ' ' :: b ++ rest) := boundary_cons (.inr (.inl rfl)) _
  rw [List.append_assoc, ha _ hcomma, List.cons_append, List.cons_append, lex_symbol rfl,
    lex_space hspace, hb rest hrest]
  simp

theorem Lexes.parens {a : List Char} {ts : List Token} (h : Lexes a ts) :
    Lexes ('(' :: (a ++ [')'])) (.symbol '(' :: (ts ++ [.symbol ')'])) := by
  intro rest hrest
  have htext : '(' :: (a ++ [')']) ++ rest = '(' :: (a ++ ')' :: rest) := by simp
  rw [htext, lex_symbol rfl, h _ (boundary_cons (.inr (.inr rfl)) rest), lex_symbol rfl]
  simp

theorem mem_of_mem_intercalate {α : Type} {sep : List α} {ls : List (List α)} {a : α}
    (h : a ∈ sep.intercalate ls) : a ∈ sep ∨ ∃ l ∈ ls, a ∈ l := by
  induction ls with
  | nil => cases h
  | cons l ls ih =>
    cases ls with
    | nil =>
      rw [List.intercalate_singleton] at h
      exact .inr ⟨l, List.mem_singleton_self l, h⟩
    | cons l' ls =>
      rw [List.intercalate_cons_cons, List.mem_append, List.mem_append] at h
      rcases h with (h | h) | h
      · exact .inr ⟨l, List.mem_cons_self, h⟩
      · exact .inl h
      · exact (ih h).imp id fun ⟨x, hx, ha⟩ => ⟨x, List.mem_cons_of_mem l hx, ha⟩

theorem intercalate_append_cons {α : Type} (sep a b : List α) (ls : List (List α)) :
    sep.intercalate ((a ++ b) :: ls) = a ++ sep.intercalate (b :: ls) := by
  cases ls with
  | nil => rw [List.intercalate_singleton, List.intercalate_singleton]
  | cons l ls =>
    rw [List.intercalate_cons_cons, List.intercalate_cons_cons]
    simp only [List.append_assoc]

theorem intercalate_intercalate_cons {α : Type} {sep : List α} {ls : List (List α)} (h : ls ≠ [])
    (ms : List (List α)) :
    sep.intercalate (sep.intercalate ls :: ms) = sep.intercalate (ls ++ ms) := by
  induction ls with
  | nil => exact absurd rfl h
  | cons x ls ih =>
    cases ls with
    | nil =>
      rw [List.intercalate_singleton]
      rfl
    | cons y ls =>
      have hrest := ih (List.cons_ne_nil y ls)
      rw [List.cons_append] at hrest
      rw [List.intercalate_cons_cons, intercalate_append_cons, hrest, List.cons_append,
        List.cons_append, List.intercalate_cons_cons]

theorem reads_intercalate {sep : List Char} {us : List Token} (hbound : ∀ b, Boundary (sep ++ b))
    (hsep : ∀ b, lex (sep ++ b) = us ++ lex b) {parts : List (List Char × List Token)}
    (h : ∀ p ∈ parts, Lexes p.1 p.2) :
    Lexes (sep.intercalate (parts.map Prod.fst)) (us.intercalate (parts.map Prod.snd)) := by
  induction parts with
  | nil => exact fun rest _ => rfl
  | cons p parts ih =>
    have hp := h p List.mem_cons_self
    have hparts := ih fun q hq => h q (List.mem_cons_of_mem p hq)
    cases parts with
    | nil =>
      rw [List.map_singleton, List.map_singleton, List.intercalate_singleton,
        List.intercalate_singleton]
      exact hp
    | cons q parts =>
      intro rest hrest
      simp only [List.map_cons, List.intercalate_cons_cons] at hparts ⊢
      rw [List.append_assoc, List.append_assoc, hp _ (hbound _), hsep, hparts rest hrest]
      simp only [List.append_assoc]

theorem reads_commas {parts : List (List Char × List Token)} (h : ∀ p ∈ parts, Lexes p.1 p.2) :
    Lexes ((", ".toList).intercalate (parts.map Prod.fst))
      ([Token.symbol ','].intercalate (parts.map Prod.snd)) := by
  apply reads_intercalate _ _ h
  · exact fun b => boundary_cons (.inr (.inl rfl)) (' ' :: b)
  · intro b
    have hspace : isSpace ' ' = true := rfl
    show lex (',' :: ' ' :: b) = _
    rw [lex_symbol rfl, lex_space hspace]
    rfl

/-- The word between the conditions of a conjunction. -/
def andWord : Token := .word "AND".toList

theorem reads_and {parts : List (List Char × List Token)} (h : ∀ p ∈ parts, Lexes p.1 p.2) :
    Lexes ((" AND ".toList).intercalate (parts.map Prod.fst))
      ([andWord].intercalate (parts.map Prod.snd)) := by
  apply reads_intercalate _ _ h
  · exact fun b => boundary_cons (.inl rfl) ('A' :: 'N' :: 'D' :: ' ' :: b)
  · intro b
    have hspace : isSpace ' ' = true := rfl
    have hand : Lexes "AND".toList [andWord] := reads_word (w := "ND".toList) rfl (by decide)
    show lex (' ' :: ("AND".toList ++ ' ' :: b)) = _
    rw [lex_space hspace, hand _ (boundary_cons (.inl rfl) b), lex_space hspace]

/-- The words that stand inside of a condition. -/
def conditionWords : List (List Char) :=
  ["IN", "NOT", "ILIKE", "true", "false", "NULL"].map String.toList

/-- The token is no word other than these. -/
def standsInCondition : Token → Bool
  | .word w => decide (w ∈ conditionWords)
  | _ => true

/-- Each parenthesis is closed; the first argument counts those that are open. -/
def balanced : ℕ → List Token → Bool
  | depth, [] => depth == 0
  | depth, t :: ts =>
    if t = .symbol '(' then balanced (depth + 1) ts
    else if t = .symbol ')' then
      match depth with
      | 0 => false
      | depth + 1 => balanced depth ts
    else balanced depth ts

/-- Tokens without a connective, with the parentheses closed. -/
def isCondition (ts : List Token) : Bool :=
  !ts.isEmpty && ts.all standsInCondition && balanced 0 ts

/-- The parts around each `AND`. -/
def conjuncts (ts : List Token) : List (List Token) := ts.splitOn andWord

/-- The truth of an expression: a conjunction of conditions is true if each of them is.  What else
can be written is left open. -/
def holds (truth other : List Token → Bool) (ts : List Token) : Bool :=
  if (conjuncts ts).all isCondition then (conjuncts ts).all truth else other ts

theorem balanced_open (depth : ℕ) (ts : List Token) :
    balanced depth (.symbol '(' :: ts) = balanced (depth + 1) ts := rfl

theorem balanced_close (depth : ℕ) (ts : List Token) :
    balanced (depth + 1) (.symbol ')' :: ts) = balanced depth ts := rfl

theorem balanced_cons {t : Token} (hopen : t ≠ .symbol '(') (hclose : t ≠ .symbol ')')
    (depth : ℕ) (ts : List Token) : balanced depth (t :: ts) = balanced depth ts := by
  rw [balanced.eq_def]
  exact (if_neg hopen).trans (if_neg hclose)

theorem balanced_append {a : List Token} {depth : ℕ} (h : balanced depth a = true)
    (b : List Token) (k : ℕ) : balanced (depth + k) (a ++ b) = balanced k b := by
  -- the parentheses open before `a` are closed in it, the `k` others behind it
  induction a generalizing depth with
  | nil =>
    have hzero : depth = 0 := by simpa [balanced] using h
    rw [hzero, Nat.zero_add, List.nil_append]
  | cons t a ih =>
    rw [List.cons_append]
    by_cases hopen : t = .symbol '('
    · rw [hopen, balanced_open] at h
      rw [hopen, balanced_open, ← ih h]
      congr 1
      omega
    · by_cases hclose : t = .symbol ')'
      · rw [hclose] at h ⊢
        cases depth with
        | zero => cases h
        | succ depth =>
          rw [balanced_close] at h
          have hdepth : depth + 1 + k = depth + k + 1 := by omega
          rw [hdepth, balanced_close]
          exact ih h
      · rw [balanced_cons hopen hclose] at h ⊢
        exact ih h

theorem balanced_parens {a : List Token} (h : balanced 0 a = true) (b : List Token) :
    balanced 0 (.symbol '(' :: (a ++ .symbol ')' :: b)) = balanced 0 b := by
  have happend := balanced_append h (.symbol ')' :: b) 1
  rw [balanced_open, happend, balanced_close]

theorem balanced_of_forall {ts : List Token} (h : ∀ t ∈ ts, t ≠ .symbol '(' ∧ t ≠ .symbol ')') :
    balanced 0 ts = true := by
  induction ts with
  | nil => rfl
  | cons t ts ih =>
    obtain ⟨hopen, hclose⟩ := h t List.mem_cons_self
    rw [balanced_cons hopen hclose]
    exact ih fun u hu => h u (List.mem_cons_of_mem t hu)

theorem andWord_not_mem {ts : List Token} (h : isCondition ts = true) : andWord ∉ ts := by
  intro hmem
  unfold isCondition at h
  simp only [Bool.and_eq_true, List.all_eq_true] at h
  have hword := h.1.2 andWord hmem
  revert hword
  decide

theorem isCondition_of_plain {ts : List Token} (hne : ts ≠ [])
    (h : ∀ t ∈ ts, standsInCondition t = true ∧ t ≠ .symbol '(' ∧ t ≠ .symbol ')') :
    isCondition ts = true := by
  have hstands : ts.all standsInCondition = true :=
    List.all_eq_true.mpr fun t ht => (h t ht).1
  have hbalanced : balanced 0 ts = true := balanced_of_forall fun t ht => (h t ht).2
  have hempty : ts.isEmpty = false := by simpa using hne
  unfold isCondition
  rw [hempty, hstands, hbalanced]
  rfl

/-- The text of a condition. -/
def ReadsCondition (text : List Char) : Prop :=
  ∃ ts, Lexes text ts ∧ isCondition ts = true

theorem ReadsCondition.ne_nil {text : List Char} (h : ReadsCondition text) : text ≠ [] := by
  rintro rfl
  obtain ⟨ts, hts, hcond⟩ := h
  rw [← hts.lex_eq] at hcond
  cases hcond

theorem holds_and (truth other : List Token → Bool) {texts : List (List Char)} (hne : texts ≠ [])
    (h : ∀ text ∈ texts, ReadsCondition text) :
    holds truth other (lex ((" AND ".toList).intercalate texts)) =
      texts.all fun text => truth (lex text) := by
  have hread : ∀ text ∈ texts, Lexes text (lex text) ∧ isCondition (lex text) = true := by
    intro text htext
    obtain ⟨ts, hts, hcond⟩ := h text htext
    rw [hts.lex_eq]
    exact ⟨hts, hcond⟩
  have hjoin : Lexes ((" AND ".toList).intercalate texts)
      ([andWord].intercalate (texts.map lex)) := by
    have hall : ∀ p ∈ texts.map fun text => (text, lex text), Lexes p.1 p.2 := by
      intro p hp
      obtain ⟨text, htext, rfl⟩ := List.mem_map.mp hp
      exact (hread text htext).1
    have hparts := reads_and hall
    rw [List.map_map, List.map_map] at hparts
    have hfst : (Prod.fst ∘ fun text : List Char => (text, lex text)) = id := rfl
    rw [hfst, List.map_id] at hparts
    exact hparts
  have hsplit : conjuncts (lex ((" AND ".toList).intercalate texts)) = texts.map lex := by
    rw [hjoin.lex_eq]
    apply List.splitOn_intercalate
    · intro ts hts
      obtain ⟨text, htext, rfl⟩ := List.mem_map.mp hts
      exact andWord_not_mem (hread text htext).2
    · simpa using hne
  unfold holds
  rw [hsplit, if_pos]
  · rw [List.all_map]
    rfl
  · rw [List.all_map, List.all_eq_true]
    exact fun text htext => (hread text htext).2

/-- `OR` over truth values of which some are unknown. -/
def anyTrue : List (Option Bool) → Option Bool
  | [] => some false
  | t :: ts =>
    match t, anyTrue ts with
    | some true, _ | _, some true => some true
    | some false, some false => some false
    | _, _ => none

theorem anyTrue_map_some {α : Type} (f : α → Bool) (as : List α) :
    anyTrue (as.map fun a => some (f a)) = some (as.any f) := by
  induction as with
  | nil => rfl
  | cons a as ih =>
    rw [List.map_cons, anyTrue.eq_def, List.any_cons]
    dsimp only
    rw [ih]
    cases f a <;> cases as.any f <;> rfl

end SqlLexer
