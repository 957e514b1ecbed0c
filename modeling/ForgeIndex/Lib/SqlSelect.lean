import ForgeIndex.Lib.SqlConstant

/-!
# A `SELECT` over one table

How the tokens of a `SELECT` with a conjunction of conditions, an order and the two counts are read.
-/

namespace SqlLexer

/-- A constant stands in a condition as it is: no connective and no parenthesis. -/
theorem Constant.plain_tokens (c : Constant) : ∀ t ∈ c.tokens,
    standsInCondition t = true ∧ t ≠ .symbol '(' ∧ t ≠ .symbol ')' := by
  cases c with
  | number n =>
    intro t ht
    rcases List.mem_append.mp ht with ht | ht
    · obtain ⟨c, hc, rfl⟩ := List.mem_map.mp ht
      have hsign : c = '+' ∨ c = '-' := by
        cases hn : n.sign <;> rw [hn] at hc <;> simp [Sign.text] at hc <;> simp [hc]
      rcases hsign with rfl | rfl <;> simp [standsInCondition]
    · unfold Decimal.unsignedTokens at ht
      split_ifs at ht
      · simp only [List.mem_cons, List.not_mem_nil, or_false] at ht
        rcases ht with rfl | rfl <;> simp [standsInCondition]
      · rw [List.mem_singleton.mp ht]
        simp [standsInCondition]
  | bool b => cases b <;> simp [Constant.tokens, standsInCondition, conditionWords]
  | _ => simp [Constant.tokens, standsInCondition, conditionWords]

def word (w : String) : Token := .word w.toList

/-- What a `SELECT` over one table asks for. -/
structure Select where
  /-- The tokens between `SELECT` and `FROM`. -/
  output : List Token
  schema : List Char
  table : List Char
  /-- The other name of the table. -/
  label : List Char
  conditions : List (List Token)
  /-- The columns to order by, from the first that counts, with `true` for a descending one. -/
  order : List (List Char × Bool)
  limit : Option ℤ
  offset : Option ℤ
  deriving DecidableEq

namespace Select

def clauseWords : List Token := [word "WHERE", word "ORDER", word "LIMIT", word "OFFSET"]

/-- The clause that begins with the word, if it is there, and what is behind it. -/
def clause (w : Token) : List Token → Option (List Token) × List Token
  | [] => (none, [])
  | t :: ts =>
    if t = w then (some (ts.takeWhile (· ∉ clauseWords)), ts.dropWhile (· ∉ clauseWords))
    else (none, t :: ts)

/-- The conditions around each `AND`. -/
def readConditions : Option (List Token) → Option (List (List Token))
  | none => some []
  | some ts => if (conjuncts ts).all isCondition then some (conjuncts ts) else none

def readKey : List Token → Option (List Char × Bool)
  | [.quoted column, direction] =>
    if direction = word "ASC" then some (column, false)
    else if direction = word "DESC" then some (column, true)
    else none
  | _ => none

def readOrder : Option (List Token) → Option (List (List Char × Bool))
  | none => some []
  | some [] => none
  | some (t :: ts) =>
    if t = word "BY" then (ts.splitOn (.symbol ',')).mapM readKey else none

def readDigits (ds : List Char) : Option ℤ :=
  if ds.all Char.isDigit then some (Nat.ofDigitChars 10 ds 0) else none

def readCount : Option (List Token) → Option (Option ℤ)
  | none => some none
  | some [.number ds] => (readDigits ds).map some
  | some [.symbol '-', .number ds] => (readDigits ds).map fun n => some (-n)
  | some _ => none

/-- The clauses behind the table, which come in this order. -/
def readClauses (output : List Token) (schema table label : List Char) (ts : List Token) :
    Option Select :=
  let (conditions, ts) := clause (word "WHERE") ts
  let (order, ts) := clause (word "ORDER") ts
  let (limit, ts) := clause (word "LIMIT") ts
  let (offset, ts) := clause (word "OFFSET") ts
  if ts.isEmpty then do
    let conditions ← readConditions conditions
    let order ← readOrder order
    let limit ← readCount limit
    let offset ← readCount offset
    some { output, schema, table, label, conditions, order, limit, offset }
  else none

/-- The statement that the tokens are, if it is of this kind. -/
def read : List Token → Option Select
  | [] => none
  | t :: ts =>
    if t = word "SELECT" then
      match ts.dropWhile (· ≠ word "FROM") with
      | _ :: .quoted schema :: .symbol '.' :: .quoted table :: .word label :: rest =>
        readClauses (ts.takeWhile (· ≠ word "FROM")) schema table label rest
      | _ => none
    else none

/-- A clause with its word. -/
def clauseTokens (w : Token) : Option (List Token) → List Token
  | none => []
  | some body => w :: body

def conditionsBody (conditions : List (List Token)) : Option (List Token) :=
  if conditions = [] then none else some ([andWord].intercalate conditions)

def keyTokens (k : List Char × Bool) : List Token :=
  [.quoted k.1, word (if k.2 then "DESC" else "ASC")]

def orderBody (order : List (List Char × Bool)) : Option (List Token) :=
  if order = [] then none
  else some (word "BY" :: [Token.symbol ','].intercalate (order.map keyTokens))

def countBody (n : Option ℤ) : Option (List Token) := n.map fun n => (Decimal.ofInt n).tokens

variable (s : Select)

def tailTokens : List Token :=
  clauseTokens (word "WHERE") (conditionsBody s.conditions) ++
    (clauseTokens (word "ORDER") (orderBody s.order) ++
      (clauseTokens (word "LIMIT") (countBody s.limit) ++
        clauseTokens (word "OFFSET") (countBody s.offset)))

def tokens : List Token :=
  word "SELECT" :: (s.output ++ (word "FROM" :: .quoted s.schema :: .symbol '.' ::
    .quoted s.table :: .word s.label :: s.tailTokens))

/-- The parts of the statement end where they are read to end. -/
structure Readable : Prop where
  output : word "FROM" ∉ s.output
  conditions : ∀ c ∈ s.conditions, isCondition c = true

/-- What follows begins with one of the words, if at all. -/
def BeginsIn (ws : List Token) (rest : List Token) : Prop := ∀ t ∈ rest.head?, t ∈ ws

theorem beginsIn_nil : BeginsIn [] [] := by
  intro t ht
  cases ht

theorem BeginsIn.clause {ws rest : List Token} (h : BeginsIn ws rest) (w : Token)
    (body : Option (List Token)) : BeginsIn (w :: ws) (clauseTokens w body ++ rest) := by
  intro t ht
  cases body with
  | some b => exact List.mem_cons.mpr (.inl (Option.some.inj ht).symm)
  | none => exact List.mem_cons_of_mem w (h t ht)

theorem clause_clauseTokens {w : Token} {body : Option (List Token)} {ws rest : List Token}
    (hbody : ∀ b ∈ body, ∀ t ∈ b, t ∉ clauseWords) (hrest : BeginsIn ws rest)
    (hws : ∀ t ∈ ws, t ∈ clauseWords ∧ t ≠ w) :
    clause w (clauseTokens w body ++ rest) = (body, rest) := by
  cases body with
  | some b =>
    have hspan := Delimited.takeWhile_word (p := fun t => decide (t ∉ clauseWords)) (r := rest)
      (fun t ht => decide_eq_true (hbody b rfl t ht))
      (fun t ht => by simpa using (hws t (hrest t ht)).1)
    show clause w (w :: (b ++ rest)) = _
    rw [clause, if_pos rfl, hspan.1, hspan.2]
  | none =>
    cases rest with
    | nil => rfl
    | cons t ts =>
      show clause w (t :: ts) = _
      rw [clause, if_neg (hws t (hrest t rfl)).2]

theorem not_clauseWord {t : Token} (h : standsInCondition t = true) : t ∉ clauseWords := by
  intro hmem
  simp only [clauseWords, List.mem_cons, List.not_mem_nil, or_false] at hmem
  rcases hmem with rfl | rfl | rfl | rfl <;> exact absurd h (by decide)

theorem stands_of_isCondition {ts : List Token} (h : isCondition ts = true) :
    ∀ t ∈ ts, standsInCondition t = true := by
  unfold isCondition at h
  simp only [Bool.and_eq_true, List.all_eq_true] at h
  exact h.1.2

theorem conditionsBody_words {conditions : List (List Token)}
    (h : ∀ c ∈ conditions, isCondition c = true) :
    ∀ b ∈ conditionsBody conditions, ∀ t ∈ b, t ∉ clauseWords := by
  intro b hb t ht
  unfold conditionsBody at hb
  split_ifs at hb
  · cases hb
  obtain rfl := Option.some.inj hb
  rcases mem_of_mem_intercalate ht with ht | ⟨c, hc, ht⟩
  · rw [List.mem_singleton.mp ht]
    decide
  · exact not_clauseWord (stands_of_isCondition (h c hc) t ht)

theorem orderBody_words (order : List (List Char × Bool)) :
    ∀ b ∈ orderBody order, ∀ t ∈ b, t ∉ clauseWords := by
  intro b hb t ht
  unfold orderBody at hb
  split_ifs at hb
  · cases hb
  obtain rfl := Option.some.inj hb
  rcases List.mem_cons.mp ht with rfl | ht
  · decide
  · rcases mem_of_mem_intercalate ht with ht | ⟨l, hl, ht⟩
    · rw [List.mem_singleton.mp ht]
      decide
    · obtain ⟨⟨column, descending⟩, -, rfl⟩ := List.mem_map.mp hl
      simp only [keyTokens, List.mem_cons, List.not_mem_nil, or_false] at ht
      rcases ht with rfl | rfl
      · simp [clauseWords, word]
      · cases descending
        · exact (by decide : word "ASC" ∉ clauseWords)
        · exact (by decide : word "DESC" ∉ clauseWords)

theorem tokens_ofInt (n : ℤ) : (Decimal.ofInt n).tokens =
    (if n < 0 then [.symbol '-'] else []) ++ [.number (Nat.toDigits 10 n.natAbs)] := by
  have hlist : (toString n.natAbs).toList = Nat.toDigits 10 n.natAbs := Nat.toList_repr
  have hne : (Decimal.ofInt n).int ≠ [] := by
    show (toString n.natAbs).toList ≠ []
    rw [hlist]
    exact Nat.toDigits_ne_nil
  have hunsigned : (Decimal.ofInt n).unsigned = Nat.toDigits 10 n.natAbs := by
    show (toString n.natAbs).toList ++ [] ++ [] = _
    rw [hlist, List.append_nil, List.append_nil]
  rw [Decimal.tokens, Decimal.unsignedTokens, if_neg hne, hunsigned]
  show (if n < 0 then Sign.minus else Sign.none).tokens ++ _ = _
  split_ifs <;> rfl

theorem countBody_words (n : Option ℤ) : ∀ b ∈ countBody n, ∀ t ∈ b, t ∉ clauseWords := by
  intro b hb t ht
  obtain ⟨n, -, rfl⟩ := Option.map_eq_some_iff.mp hb
  rw [tokens_ofInt] at ht
  split_ifs at ht <;> simp at ht
  · rcases ht with rfl | rfl <;> simp [clauseWords, word]
  · rw [ht]
    simp [clauseWords, word]

theorem readConditions_conditionsBody {conditions : List (List Token)}
    (h : ∀ c ∈ conditions, isCondition c = true) :
    readConditions (conditionsBody conditions) = some conditions := by
  unfold conditionsBody
  split_ifs with hempty
  · rw [hempty]
    rfl
  · have hsplit : conjuncts ([andWord].intercalate conditions) = conditions :=
      List.splitOn_intercalate andWord (fun c hc => andWord_not_mem (h c hc)) hempty
    rw [readConditions, hsplit, if_pos (List.all_eq_true.mpr h)]

theorem readKey_keyTokens (k : List Char × Bool) : readKey (keyTokens k) = some k := by
  obtain ⟨column, descending⟩ := k
  cases descending with
  | false => exact if_pos rfl
  | true =>
    have hne : word "DESC" ≠ word "ASC" := by decide
    exact (if_neg hne).trans (if_pos rfl)

theorem mapM_readKey (order : List (List Char × Bool)) :
    (order.map keyTokens).mapM readKey = some order := by
  induction order with
  | nil => rfl
  | cons k order ih =>
    rw [List.map_cons, List.mapM_cons, readKey_keyTokens, ih]
    rfl

theorem readOrder_orderBody (order : List (List Char × Bool)) :
    readOrder (orderBody order) = some order := by
  unfold orderBody
  split_ifs with hempty
  · rw [hempty]
    rfl
  · have hcomma : ∀ l ∈ order.map keyTokens, Token.symbol ',' ∉ l := by
      intro l hl
      obtain ⟨⟨column, descending⟩, -, rfl⟩ := List.mem_map.mp hl
      simp [keyTokens, word]
    have hsplit : ([Token.symbol ','].intercalate (order.map keyTokens)).splitOn (.symbol ',') =
        order.map keyTokens :=
      List.splitOn_intercalate _ hcomma (by simpa using hempty)
    rw [readOrder, if_pos rfl, hsplit, mapM_readKey]

theorem readDigits_toDigits (n : ℕ) : readDigits (Nat.toDigits 10 n) = some (n : ℤ) := by
  have hdigits : (Nat.toDigits 10 n).all Char.isDigit = true :=
    List.all_eq_true.mpr fun c hc => Nat.isDigit_of_mem_toDigits (by omega) (by omega) hc
  rw [readDigits, if_pos hdigits, Nat.ofDigitChars_toDigits (by omega) (by omega)]

theorem readCount_countBody (n : Option ℤ) : readCount (countBody n) = some n := by
  cases n with
  | none => rfl
  | some n =>
    show readCount (some (Decimal.ofInt n).tokens) = _
    rw [tokens_ofInt]
    split_ifs with hneg
    · have habs : -(n.natAbs : ℤ) = n := by omega
      show (readDigits _).map (fun n => some (-n)) = _
      rw [readDigits_toDigits, Option.map_some, habs]
    · have habs : (n.natAbs : ℤ) = n := by omega
      show (readDigits _).map some = _
      rw [readDigits_toDigits, Option.map_some, habs]

theorem readClauses_tailTokens (h : s.Readable) :
    readClauses s.output s.schema s.table s.label s.tailTokens = some s := by
  have hoffset : BeginsIn [word "OFFSET"]
      (clauseTokens (word "OFFSET") (countBody s.offset) ++ []) := beginsIn_nil.clause _ _
  have hlimit := hoffset.clause (word "LIMIT") (countBody s.limit)
  have horder := hlimit.clause (word "ORDER") (orderBody s.order)
  rw [List.append_nil] at hoffset hlimit horder
  have hreadOffset := clause_clauseTokens (w := word "OFFSET") (countBody_words s.offset)
    beginsIn_nil (by simp)
  rw [List.append_nil] at hreadOffset
  unfold readClauses tailTokens
  rw [clause_clauseTokens (conditionsBody_words h.conditions) horder (by decide)]
  dsimp only
  rw [clause_clauseTokens (orderBody_words s.order) hlimit (by decide)]
  dsimp only
  rw [clause_clauseTokens (countBody_words s.limit) hoffset (by decide)]
  dsimp only
  rw [hreadOffset]
  dsimp only
  rw [readConditions_conditionsBody h.conditions, readOrder_orderBody, readCount_countBody,
    readCount_countBody]
  rfl

theorem read_tokens (h : s.Readable) : read s.tokens = some s := by
  have hspan := Delimited.takeWhile_word (p := fun t => decide (t ≠ word "FROM"))
    (r := word "FROM" :: .quoted s.schema :: .symbol '.' :: .quoted s.table :: .word s.label ::
      s.tailTokens)
    (fun t ht => decide_eq_true fun heq => h.output (heq ▸ ht))
    (fun t ht => by simpa using (Option.some.inj ht).symm)
  rw [tokens, read, if_pos rfl, hspan.2, hspan.1]
  exact readClauses_tailTokens s h

def clauseText (w : String) : Option (List Char) → List Char
  | none => []
  | some body => ' ' :: (w.toList ++ ' ' :: body)

theorem boundary_clauseText (w : String) (text : Option (List Char)) {rest : List Char}
    (hrest : Boundary rest) : Boundary (clauseText w text ++ rest) := by
  cases text with
  | none => exact hrest
  | some body => exact boundary_cons (.inl rfl) _

theorem reads_clause {w : String} (hw : Lexes w.toList [word w]) {text : Option (List Char)}
    {body : Option (List Token)} (h : Option.Rel Lexes text body) :
    Lexes (clauseText w text) (clauseTokens (word w) body) := by
  cases h with
  | none => exact fun rest _ => rfl
  | @some body ts hbody =>
    intro rest hrest
    have hspace : isSpace ' ' = true := rfl
    show lex (' ' :: (w.toList ++ ' ' :: body ++ rest)) = _
    rw [lex_space hspace]
    exact hw.space hbody rest hrest

theorem reads_append_clause {a : List Char} {ts us : List Token} (ha : Lexes a ts) {w : String}
    {text : Option (List Char)} (h : Lexes (clauseText w text) us) :
    Lexes (a ++ clauseText w text) (ts ++ us) := by
  intro rest hrest
  rw [List.append_assoc, ha _ (boundary_clauseText w text hrest), h rest hrest, List.append_assoc]

end Select

end SqlLexer
