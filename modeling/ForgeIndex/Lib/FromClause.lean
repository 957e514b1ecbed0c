import ForgeIndex.Lib.SqlLexer

/-!
# Table references

A scan over SQL tokens that knows where a table is to be named: behind `FROM` and `JOIN`, behind a
comma of the same clause, and in parentheses there.  It fails at a name that is neither followed by a
point nor called as a function.  Names can carry a mark that makes up for the point.
-/

namespace FromClause

open SqlLexer

/-- What an unquoted word is to the scan. -/
inductive Word where
  | fromClause
  | join
  /-- It begins a clause that names no tables. -/
  | clause
  /-- It begins a query where a table could be named. -/
  | query
  /-- It stands before the name of a table. -/
  | modifier
  | distinct
  /-- A function that has `FROM` among its arguments. -/
  | function
  | name
  deriving DecidableEq, Repr

def wordOf (text : List Char) : Word :=
  let isOneOf (words : List String) : Bool := words.any fun w => w.toList == text.map Char.toUpper
  if isOneOf ["FROM"] then .fromClause
  else if isOneOf ["JOIN"] then .join
  else if isOneOf ["SELECT", "WHERE", "GROUP", "HAVING", "WINDOW", "ORDER", "LIMIT", "OFFSET",
    "FETCH", "FOR", "UNION", "INTERSECT", "EXCEPT"] then .clause
  else if isOneOf ["WITH", "VALUES"] then .query
  else if isOneOf ["ONLY", "LATERAL"] then .modifier
  else if isOneOf ["DISTINCT"] then .distinct
  else if isOneOf ["EXTRACT", "SUBSTRING", "TRIM", "OVERLAY"] then .function
  else .name

/-- What a token is to the scan; names keep their mark. -/
inductive Lexeme where
  | word (w : Word) (marked : Bool)
  | opening
  | closing
  | comma
  | dot
  | other
  deriving DecidableEq, Repr

def lexemeOf (token : Token) (marked : Bool) : Lexeme :=
  match token with
  | .word text => .word (wordOf text) marked
  | .quoted _ => .word .name marked
  | .symbol c =>
    if c = '(' ∨ c = '[' then .opening
    else if c = ')' ∨ c = ']' then .closing
    else if c = ',' then .comma
    else if c = '.' then .dot
    else .other
  | _ => .other

/-- Where the scan is: outside of the clause, before a table, behind a name without a point, or
behind a table. -/
inductive Place where
  | outside
  | item
  | name
  | list
  deriving DecidableEq, Repr

/-- One level of parentheses; the arguments of some functions have a `FROM` of their own. -/
structure Level where
  place : Place
  arguments : Bool
  deriving DecidableEq, Repr

structure Scan where
  level : Level
  outer : List Level
  /-- The last token is `DISTINCT`. -/
  distinct : Bool
  /-- The last token is a function with `FROM` among its arguments. -/
  function : Bool
  deriving DecidableEq, Repr

def Scan.start : Scan := ⟨⟨.outside, false⟩, [], false, false⟩

/-- The place behind a word. -/
def Scan.placeAfter (s : Scan) (w : Word) (marked : Bool) : Place :=
  match w with
  | .fromClause => if s.distinct || s.level.arguments then s.level.place else .item
  | .join => .item
  | .clause => .outside
  | .query => if s.level.place = .item then .outside else s.level.place
  | .modifier | .distinct => s.level.place
  | .function | .name =>
    if s.level.place = .item then if marked then .list else .name else s.level.place

/-- The scan behind a token of its level. -/
def Scan.at (s : Scan) (place : Place) : Scan :=
  { s with level := { s.level with place := place }, distinct := false, function := false }

/-- One token; nothing if it shows that a name has no schema. -/
def Scan.step (s : Scan) (x : Lexeme) : Option Scan :=
  if s.level.place = .name ∧ x ≠ .dot ∧ x ≠ .opening then none
  else some <| match x with
  | .word w marked =>
    { s.at (s.placeAfter w marked) with
      distinct := w == .distinct
      function := w == .function }
  | .opening =>
    { level := ⟨if s.level.place = .item then .item else .outside, s.function⟩
      outer := { s.level with
        place := if s.level.place = .outside then .outside else .list } :: s.outer
      distinct := false
      function := false }
  | .closing =>
    { level := s.outer.headD s.level, outer := s.outer.tail, distinct := false, function := false }
  | .comma => s.at (if s.level.place = .list then .item else s.level.place)
  | .dot => s.at (if s.level.place = .name then .list else s.level.place)
  | .other => s.at (if s.level.place = .item then .list else s.level.place)

/-- No name without a schema or a mark. -/
def accepts : Scan → List Lexeme → Bool
  | s, [] => s.level.place != .name
  | s, x :: l =>
    match s.step x with
    | some s' => accepts s' l
    | none => false

/-- The tokens of a text name every table of the `FROM` clauses with a schema. -/
def Qualified (text : List Char) : Prop :=
  accepts .start ((lex text).map fun token => lexemeOf token false) = true

instance (text : List Char) : Decidable (Qualified text) :=
  inferInstanceAs (Decidable (_ = true))

/-- Lexemes in which each marked name is replaced by a name with a schema, the last of which may be
cut off. -/
inductive Expands : List Lexeme → List Lexeme → Prop
  | nil : Expands [] []
  | cut : Expands [] [.word .name false, .dot]
  | same (x : Lexeme) {l l' : List Lexeme} : Expands l l' → Expands (x :: l) (x :: l')
  | marked {l l' : List Lexeme} : Expands l l' →
      Expands (.word .name true :: l) (.word .name false :: .dot :: .word .name false :: l')

theorem accepts_of_expands {l l' : List Lexeme} (h : Expands l l') (s : Scan) :
    accepts s l = accepts s l' := by
  induction h generalizing s with
  | nil => rfl
  | cut =>
    obtain ⟨⟨place, arguments⟩, outer, distinct, function⟩ := s
    cases place <;> rfl
  | same x _ ih =>
    rw [accepts, accepts]
    cases s.step x with
    | none => rfl
    | some s' => exact ih s'
  | marked _ ih =>
    obtain ⟨⟨place, arguments⟩, outer, distinct, function⟩ := s
    cases place with
    | name => rfl
    | outside => exact ih ⟨⟨.outside, arguments⟩, outer, false, false⟩
    | item => exact ih ⟨⟨.list, arguments⟩, outer, false, false⟩
    | list => exact ih ⟨⟨.list, arguments⟩, outer, false, false⟩

theorem accepts_clause (l : List Lexeme) (s : Scan) :
    accepts s (l ++ [.word .clause false, .other]) = accepts s l := by
  induction l generalizing s with
  | nil =>
    obtain ⟨⟨place, arguments⟩, outer, distinct, function⟩ := s
    cases place <;> rfl
  | cons x l ih =>
    rw [List.cons_append, accepts, accepts]
    cases s.step x with
    | none => rfl
    | some s' => exact ih s'

def lexemes (tokens : List Token) : List Lexeme := tokens.map fun token => lexemeOf token false

def lexemesMarked (tokens : List (Token × Bool)) : List Lexeme :=
  tokens.map fun x => lexemeOf x.1 x.2

/-- The mode without the text between its quotes. -/
def kind : Mode → Mode
  | .inQuotes quote _ => .inQuotes quote []
  | .quoteEnd quote _ => .quoteEnd quote []
  | .inEscape stray _ => .inEscape stray []
  | .escaped stray _ => .escaped stray []
  | .escapeEnd stray _ => .escapeEnd stray []
  | .inDollar tag _ => .inDollar tag []
  | .dollarEnd tag _ part => .dollarEnd tag [] part
  | .dollarDone tag _ => .dollarDone tag []
  | m => m

theorem begins_kind (m : Mode) (c : Char) : begins (kind m) c = begins m c := by
  cases m <;> rfl

theorem opens_kind (m : Mode) (c : Char) : opens (kind m) c = opens m c := by
  cases m <;> rfl

theorem closed_kind (m : Mode) : (kind m).closed = m.closed := by
  cases m <;> rfl

theorem kind_step (m : Mode) (c : Char) : kind (step (kind m) c).2 = kind (step m c).2 := by
  cases m with
  | inQuotes | quoteEnd | inEscape | inDollar | dollarEnd =>
    unfold kind step
    dsimp only
    split_ifs <;> rfl
  | escapeEnd stray text =>
    unfold kind step
    dsimp only
    split_ifs
    · rfl
    · rfl
  | _ => rfl

theorem lexemeOf_quoteToken (quote : Char) (value value' : List Char) (marked : Bool) :
    lexemeOf (quoteToken quote value) marked = lexemeOf (quoteToken quote value') marked := by
  unfold quoteToken
  split_ifs <;> rfl

theorem flush_kind (m : Mode) (marked : Bool) :
    (flush (kind m)).map (fun token => lexemeOf token marked) =
      (flush m).map fun token => lexemeOf token marked := by
  cases m with
  | quoteEnd quote value =>
    show [lexemeOf (quoteToken quote []) marked] = [lexemeOf (quoteToken quote value) marked]
    rw [lexemeOf_quoteToken quote [] value]
  | escapeEnd stray text => cases stray <;> rfl
  | _ => rfl

theorem lexemes_append (a b : List Token) : lexemes (a ++ b) = lexemes a ++ lexemes b :=
  List.map_append

theorem lexemesMarked_append (a b : List (Token × Bool)) :
    lexemesMarked (a ++ b) = lexemesMarked a ++ lexemesMarked b := List.map_append

theorem lexemesMarked_map (tokens : List Token) (b : Bool) :
    lexemesMarked (tokens.map fun token => (token, b)) =
      tokens.map fun token => lexemeOf token b := by
  unfold lexemesMarked
  rw [List.map_map]
  rfl

theorem lexemes_kind {m m' : Mode} (h : kind m = kind m') (s : List Char) :
    lexemes (lexFrom m s) = lexemes (lexFrom m' s) := by
  induction s generalizing m m' with
  | nil =>
    show (flush m).map _ = (flush m').map _
    rw [← flush_kind m, h, flush_kind]
  | cons c s ih =>
    have hnext : kind (step m c).2 = kind (step m' c).2 := by
      rw [← kind_step m, h, kind_step]
    rw [lexFrom, lexFrom, lexemes_append, lexemes_append, ih hnext]
    congr 1
    by_cases hc : begins m c = true
    · have hc' : begins m' c = true := by rw [← begins_kind, ← h, begins_kind, hc]
      have hflush : lexemes (flush m) = lexemes (flush m') := by
        show (flush m).map _ = (flush m').map _
        rw [← flush_kind m, h, flush_kind]
      have hopens : opens m c = opens m' c := by rw [← opens_kind, h, opens_kind]
      rw [step_of_begins hc, step_of_begins hc', lexemes_append, lexemes_append, hflush, hopens]
    · have hc' : begins m' c = false := by
        rw [← begins_kind, ← h, begins_kind]
        simpa using hc
      rw [step_of_not_begins (by simpa using hc), step_of_not_begins hc']

/-- Two readings that have gone apart in marked names only.  A mark that is pending belongs to a
quoted name. -/
structure Sim (b : Bool) (m m' : Mode) : Prop where
  same : kind m = kind m'
  marked : b = true → ∃ v, m = .inQuotes '"' v ∨ m = .quoteEnd '"' v

/-- The schema and the point that the second reading has ahead of a marked name. -/
def owed (b : Bool) : List Lexeme := if b then [.word .name false, .dot] else []

theorem Expands.same_append (x : List Lexeme) {l l' : List Lexeme} (h : Expands l l') :
    Expands (x ++ l) (x ++ l') := by
  induction x with
  | nil => exact h
  | cons y x ih => exact .same y ih

theorem Sim.flush {b : Bool} {m m' : Mode} (h : Sim b m m') (hm : m.closed = true)
    {l l' : List Lexeme} (hl : Expands l l') :
    Expands ((SqlLexer.flush m).map (fun token => lexemeOf token b) ++ l)
      (owed b ++ (lexemes (SqlLexer.flush m') ++ l')) := by
  have hflush : lexemes (SqlLexer.flush m') = lexemes (SqlLexer.flush m) := by
    show (SqlLexer.flush m').map _ = (SqlLexer.flush m).map _
    rw [← flush_kind m', ← h.same, flush_kind]
  rw [hflush]
  cases b with
  | false => exact hl.same_append _
  | true =>
    obtain ⟨v, rfl | rfl⟩ := h.marked rfl
    · cases hm
    · exact .marked hl

theorem closed_of_begins {m : Mode} {c : Char} (h : begins m c = true) : m.closed = true := by
  cases m with
  | inQuotes | inEscape | escaped | gapLine | inDollar | dollarEnd | line | block | blockStar
  | blockSlash => cases h
  | _ => rfl

theorem expands_end {b : Bool} {m m' : Mode} (h : Sim b m m') :
    Expands (lexemesMarked (lexMarked b m [])) (owed b ++ lexemes (lexFrom m' [])) := by
  by_cases hm : m.closed = true
  · have := h.flush hm .nil
    rw [List.append_nil, List.append_nil] at this
    rw [lexMarked, lexFrom, lexemesMarked_map]
    exact this
  · have hm' : m'.closed ≠ true := by
      rw [← closed_kind, ← h.same, closed_kind]
      exact hm
    rw [lexMarked, lexFrom, flush_of_not_closed hm, flush_of_not_closed hm']
    cases b with
    | false => exact .nil
    | true => exact .cut

theorem expands_run {u : List Char} {X : List (Char × Bool)} {Y : List Char} {b : Bool}
    {m m' : Mode} (h : Sim b m m')
    (hrest : ∀ b' m₁', Sim b' (modeAfter m u) m₁' →
      Expands (lexemesMarked (lexMarked b' (modeAfter m u) X)) (owed b' ++ lexemes (lexFrom m₁' Y))) :
    Expands (lexemesMarked (lexMarked b m (u.map (fun c => (c, false)) ++ X)))
      (owed b ++ lexemes (lexFrom m' (u ++ Y))) := by
  induction u generalizing b m m' with
  | nil => exact hrest b m' h
  | cons c u ih =>
    have hnext : kind (step m c).2 = kind (step m' c).2 := by
      rw [← kind_step m, h.same, kind_step]
    rw [List.map_cons, List.cons_append, List.cons_append, lexMarked, lexFrom]
    by_cases hc : begins m c = true
    · have hc' : begins m' c = true := by rw [← begins_kind, ← h.same, begins_kind, hc]
      have hopens : opens m' c = opens m c := by rw [← opens_kind, ← h.same, opens_kind]
      rw [if_pos hc, step_of_begins hc', hopens, List.append_assoc, List.append_assoc,
        lexemesMarked_append, lexemesMarked_append, lexemesMarked_map, lexemesMarked_map,
        lexemes_append, lexemes_append]
      apply h.flush (closed_of_begins hc)
      apply Expands.same_append
      rw [modeAfter, step_of_begins hc] at hrest
      exact ih ⟨rfl, by simp⟩ hrest
    · have hc' : begins m' c = false := by
        rw [← begins_kind, ← h.same, begins_kind]
        simpa using hc
      rw [if_neg hc, step_of_not_begins hc', List.nil_append]
      apply ih ⟨hnext, fun hb => ?_⟩ hrest
      obtain ⟨v, rfl | rfl⟩ := h.marked hb
      · unfold step
        dsimp only
        split_ifs
        · exact ⟨v, .inr rfl⟩
        · exact ⟨_, .inl rfl⟩
      · have heq : c = '"' := by simpa [begins] using hc
        rw [step, if_pos heq]
        exact ⟨_, .inl rfl⟩

/-- An identifier that is no keyword of the scan. -/
def isName : List Char → Bool
  | [] => false
  | c :: w => identStart c && w.all identCont && wordOf (c :: w) == .name

theorem isName_iff {w : List Char} : isName w = true ↔
    ∃ c v, w = c :: v ∧ identStart c = true ∧ (∀ d ∈ v, identCont d = true) ∧ wordOf w = .name := by
  cases w with
  | nil => simp [isName]
  | cons c v =>
    simp only [isName, Bool.and_eq_true, List.all_eq_true, beq_iff_eq, and_assoc]
    constructor
    · rintro ⟨hc, hv, hname⟩
      exact ⟨c, v, rfl, hc, hv, hname⟩
    · rintro ⟨c', v', heq, hc, hv, hname⟩
      cases heq
      exact ⟨hc, hv, hname⟩

theorem identCont_of_isName {w : List Char} (h : isName w = true) {c : Char} (hc : c ∈ w) :
    identCont c = true := by
  obtain ⟨d, v, rfl, hd, hv, -⟩ := isName_iff.mp h
  rcases List.mem_cons.mp hc with rfl | hc
  · unfold identCont
    rw [hd]
    rfl
  · exact hv c hc

theorem notMem_of_isName {w : List Char} (h : isName w = true) {c : Char}
    (hc : identCont c = false) : c ∉ w := by
  intro hmem
  rw [identCont_of_isName h hmem] at hc
  cases hc

theorem lex_name {w : List Char} (h : isName w = true) {s : List Char}
    (hs : ∀ c ∈ s.head?, wordCont w c = false) : lex (w ++ s) = .word w :: lex s := by
  obtain ⟨c, v, rfl, hc, hv, -⟩ := isName_iff.mp h
  rw [List.cons_append, lex_cons, start_of_identStart hc]
  exact lexFrom_word hv hs

/-- A text whose first character is marked. -/
def markFirst : List Char → List (Char × Bool)
  | [] => []
  | c :: s => (c, true) :: s.map fun c => (c, false)

theorem lexMarked_word (b : Bool) (w v : List Char) (hv : ∀ c ∈ v, identCont c = true)
    (X : List (Char × Bool)) :
    lexMarked b (.word w) (v.map (fun c => (c, false)) ++ X) = lexMarked b (.word (w ++ v)) X := by
  induction v generalizing w with
  | nil => rw [List.append_nil, List.map_nil, List.nil_append]
  | cons c v ih =>
    have hc := hv c List.mem_cons_self
    have hbegins : begins (.word w) c ≠ true := by simp [begins, wordCont, hc]
    rw [List.map_cons, List.cons_append, lexMarked, if_neg hbegins, step, if_pos hc,
      ih (w ++ [c]) fun d hd => hv d (List.mem_cons_of_mem _ hd), List.append_assoc]
    rfl

theorem lexMarked_plain (b : Bool) (c : Char) (mark : Bool) (X : List (Char × Bool)) :
    lexMarked b .plain ((c, mark) :: X) =
      (start c).1.map (fun token => (token, mark)) ++ lexMarked mark (start c).2 X := rfl

theorem lexMarked_ends {b : Bool} (b' : Bool) {w : List Char} {X : List (Char × Bool)}
    (h : ∀ x ∈ X.head?, wordCont w x.1 = false) :
    lexMarked b (.word w) X = (.word w, b) :: lexMarked b' .plain X := by
  cases X with
  | nil => simp [lexMarked, flush]
  | cons x X =>
    obtain ⟨c, mark⟩ := x
    have hbegins : begins (.word w) c = true := by simp [begins, h _ rfl]
    rw [lexMarked, if_pos hbegins, lexMarked_plain, List.append_assoc]
    rfl

theorem startGap_of_ne {c : Char} (hspace : isSpace c = false) (hquote : c ≠ '\'') (hdash : c ≠ '-')
    (newline : Bool) : startGap newline c = start c := by
  unfold startGap
  rw [hspace, if_neg Bool.false_ne_true, if_neg fun h => hquote h.1, if_neg hdash]

theorem step_gap {newline : Bool} {c : Char} (h : startGap newline c = start c) :
    step (.gap newline) c = step .plain c := by
  show ([] ++ (startGap newline c).1, (startGap newline c).2) = ([] ++ (start c).1, (start c).2)
  rw [h]

theorem lexMarked_gap {newline : Bool} {c : Char} (h : startGap newline c = start c) (b mark : Bool)
    (X : List (Char × Bool)) :
    lexMarked b (.gap newline) ((c, mark) :: X) = lexMarked b .plain ((c, mark) :: X) := by
  show [] ++ (startGap newline c).1.map _ ++ lexMarked mark (startGap newline c).2 X = _
  rw [h]
  rfl

theorem lexFrom_gap {newline : Bool} {c : Char} (h : startGap newline c = start c) (s : List Char) :
    lexFrom (.gap newline) (c :: s) = lex (c :: s) := by
  rw [lexFrom, step_gap h]
  rfl

section Hits

variable {schema table : List Char} {X : List (Char × Bool)} {Y : List Char}

theorem expands_bare (hschema : isName schema = true) (htable : isName table = true) (b : Bool)
    (hX : ∀ x ∈ X.head?, wordCont table x.1 = false) (hY : Y.head? ≠ some '"')
    (hrest : Expands (lexemesMarked (lexMarked false .plain X)) (lexemes (lex Y))) :
    Expands (lexemesMarked (lexMarked b .plain (markFirst table ++ X)))
      (lexemes (lex (schema ++ '.' :: '"' :: table ++ '"' :: Y))) := by
  have hread : lexMarked b .plain (markFirst table ++ X) =
      (.word table, true) :: lexMarked false .plain X := by
    obtain ⟨c, v, rfl, hc, hv, -⟩ := isName_iff.mp htable
    rw [markFirst, List.cons_append, lexMarked_plain, start_of_identStart hc]
    show lexMarked true (.word [c]) (v.map (fun c => (c, false)) ++ X) = _
    rw [lexMarked_word true [c] v hv]
    exact lexMarked_ends false hX
  have hquote : '"' ∉ table := notMem_of_isName htable (by decide)
  have hname : lex ('"' :: (table ++ '"' :: Y)) = .quoted table :: lex Y := by
    have hvalue := readQuoted_doubled (v := table) hY
    rw [doubled_of_not_mem hquote] at hvalue
    rw [lex_quote (.inr rfl), hvalue]
    rfl
  have hdot : ∀ s : List Char, lex ('.' :: s) = .symbol '.' :: lex s := fun s => rfl
  have hword : wordOf table = .name := by
    obtain ⟨-, -, -, -, -, hword⟩ := isName_iff.mp htable
    exact hword
  have hword' : wordOf schema = .name := by
    obtain ⟨-, -, -, -, -, hword⟩ := isName_iff.mp hschema
    exact hword
  rw [hread, List.append_assoc, List.cons_append, List.cons_append, lex_name hschema, hdot, hname]
  · show Expands (.word (wordOf table) true :: _)
      (.word (wordOf schema) false :: .dot :: .word .name false :: _)
    rw [hword, hword']
    exact .marked hrest
  · intro c hc
    rw [← Option.some.inj hc]
    rfl

theorem expands_quoted (hschema : isName schema = true) (b : Bool)
    (hrest : Expands (lexemesMarked (lexMarked true (.inQuotes '"' []) X))
      (owed true ++ lexemes (lexFrom (.inQuotes '"' []) Y))) :
    Expands (lexemesMarked (lexMarked b .plain (('"', true) :: X)))
      (lexemes (lex (schema ++ '.' :: '"' :: Y))) := by
  have hread : lexMarked b .plain (('"', true) :: X) = lexMarked true (.inQuotes '"' []) X := rfl
  have hquote : lex ('.' :: '"' :: Y) = .symbol '.' :: lexFrom (.inQuotes '"' []) Y := rfl
  have hword : wordOf schema = .name := by
    obtain ⟨-, -, -, -, -, hword⟩ := isName_iff.mp hschema
    exact hword
  rw [hread, lex_name hschema, hquote]
  · show Expands _ (.word (wordOf schema) false :: .dot :: lexemes _)
    rw [hword]
    exact hrest
  · intro c hc
    rw [← Option.some.inj hc]
    rfl

end Hits

/-- The character belongs to the quote or the comment. -/
def Inert : Mode → Char → Prop
  | .inQuotes quote _, c => c ≠ quote
  | .inEscape _ _, c => c ≠ '\'' ∧ c ≠ '\\'
  | .inDollar _ _, c => c ≠ '$'
  | .line, c | .gapLine _, c => isNewline c = false
  | .block _, c => c ≠ '*' ∧ c ≠ '/'
  | _, _ => False

theorem step_of_inert {m : Mode} {c : Char} (h : Inert m c) :
    begins m c = false ∧ kind (step m c).2 = kind m ∧ ∀ d, Inert (step m c).2 d ↔ Inert m d := by
  cases m with
  | inQuotes quote value =>
    rw [step, if_neg h]
    exact ⟨rfl, rfl, fun d => Iff.rfl⟩
  | inEscape stray text =>
    rw [step, if_neg h.1, if_neg h.2]
    exact ⟨rfl, rfl, fun d => Iff.rfl⟩
  | inDollar tag text =>
    rw [step, if_neg h]
    exact ⟨rfl, rfl, fun d => Iff.rfl⟩
  | line | gapLine =>
    rw [step, if_neg (Bool.eq_false_iff.mp h)]
    exact ⟨rfl, rfl, fun d => Iff.rfl⟩
  | block n =>
    rw [step, if_neg h.1, if_neg h.2]
    exact ⟨rfl, rfl, fun d => Iff.rfl⟩
  | _ => exact absurd h id

/-- A text inside of quotes or of a comment is a part of them, and its marks count for nothing. -/
theorem run_inert {w : List (Char × Bool)} {m : Mode} (h : ∀ x ∈ w, Inert m x.1) :
    kind (modeAfter m (w.map Prod.fst)) = kind m ∧
      (∀ s, lexFrom m (w.map Prod.fst ++ s) = lexFrom (modeAfter m (w.map Prod.fst)) s) ∧
      ∀ b X, lexMarked b m (w ++ X) = lexMarked b (modeAfter m (w.map Prod.fst)) X := by
  induction w generalizing m with
  | nil => exact ⟨rfl, fun s => rfl, fun b X => rfl⟩
  | cons x w ih =>
    obtain ⟨c, mark⟩ := x
    obtain ⟨hbegins, hkind, hinert⟩ := step_of_inert (h (c, mark) List.mem_cons_self)
    obtain ⟨hrun, hlex, hmarked⟩ := ih fun y hy => (hinert y.1).mpr (h y (List.mem_cons_of_mem _ hy))
    refine ⟨hrun.trans hkind, fun s => ?_, fun b X => ?_⟩
    · show (step m c).1 ++ lexFrom (step m c).2 (w.map Prod.fst ++ s) = _
      rw [step_of_not_begins hbegins, List.nil_append, hlex]
      rfl
    · rw [List.cons_append, lexMarked, if_neg (by simp [hbegins]), hmarked]
      rfl

theorem lexFrom_inert {w : List Char} {m : Mode} (h : ∀ c ∈ w, Inert m c) :
    kind (modeAfter m w) = kind m ∧ ∀ s, lexFrom m (w ++ s) = lexFrom (modeAfter m w) s := by
  have hrun := run_inert (w := w.map fun c => (c, false)) (m := m) (by simpa using h)
  have hfst : w.map (Prod.fst ∘ fun c => (c, false)) = w := by simp [Function.comp_def]
  rw [List.map_map, hfst] at hrun
  exact ⟨hrun.1, hrun.2.1⟩

end FromClause
