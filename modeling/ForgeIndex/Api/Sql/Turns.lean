import Mathlib.Data.List.Dedup
import Mathlib.Data.List.Infix
import Mathlib.Data.List.ProdSigma
import ForgeIndex.Api.Sql.Qualify
import ForgeIndex.Lib.SqlLexer

/-!
# The turns of the rewriting

The loops of steps 8 and 9 try each table name with each spelling of a keyword.  On a query of words
with one space between them such a turn is a step on the list of words.  The query keeps its meaning
exactly if every turn qualifies the references to its own table behind its own keyword and nothing
else.
-/

namespace ForgeIndex

open Text SqlLexer

namespace Sql

/-- A table name and a spelling of a keyword. -/
abbrev Turn := List Char × String

/-- A word with the one before it and the one behind it. -/
structure Spot where
  before : List Char
  word : List Char
  next : List Char

/-- The words that another one follows, the first of them behind `o`. -/
def spots : List Char → List Char → List (List Char) → List Spot
  | _, _, [] => []
  | o, p, q :: gs => ⟨o, p, q⟩ :: spots p q gs

/-- The keywords that a table follows. -/
def isReference (p : List Char) : Bool := p == "FROM".toList || p == "JOIN".toList

/-- An identifier, which is none of the two keywords. -/
def isIdentifier : List Char → Bool
  | [] => false
  | c :: w => identStart c && w.all identCont && !isReference (c :: w)

/-- A query of words with single spaces: ASCII, no quotes, parentheses, commas, semicolons or
comments, the two keywords in upper case and an identifier behind each. -/
structure PlainQuery (p : List Char) (gs : List (List Char)) : Prop where
  ascii : ∀ q ∈ p :: gs, ∀ c ∈ q, c.toNat < 128
  words : ∀ q ∈ p :: gs, q ≠ [] ∧ ∀ c ∈ q, isWhitespace c = false
  marks : ∀ q ∈ p :: gs, ∀ c ∈ q, c ∉ ['\'', '"', '(', ')', ',', ';']
  comments : ∀ q ∈ p :: gs, ¬"--".toList <:+: q ∧ ¬"/*".toList <:+: q
  upper : ∀ q ∈ p :: gs, isReference (q.map Char.toUpper) = true → isReference q = true
  identifiers : ∀ x ∈ spots [] p gs, isReference x.word = true → isIdentifier x.next = true
  followed : ∀ q ∈ (p :: gs).getLast?, isReference q = false

instance (p : List Char) (gs : List (List Char)) : Decidable (PlainQuery p gs) :=
  decidable_of_iff
    ((∀ q ∈ p :: gs, (q.all fun c => decide (c.toNat < 128)) = true) ∧
      (∀ q ∈ p :: gs, q ≠ [] ∧ (q.all fun c => decide (isWhitespace c = false)) = true) ∧
      (∀ q ∈ p :: gs, (q.all fun c => decide (c ∉ ['\'', '"', '(', ')', ',', ';'])) = true) ∧
      (∀ q ∈ p :: gs, ¬"--".toList <:+: q ∧ ¬"/*".toList <:+: q) ∧
      (∀ q ∈ p :: gs, isReference (q.map Char.toUpper) = true → isReference q = true) ∧
      (∀ x ∈ spots [] p gs, isReference x.word = true → isIdentifier x.next = true) ∧
      ∀ q ∈ (p :: gs).getLast?, isReference q = false)
    ⟨fun ⟨h1, h2, h3, h4, h5, h6, h7⟩ => ⟨fun q hq => List.all_iff_forall_prop.mp (h1 q hq),
        fun q hq => (h2 q hq).imp id List.all_iff_forall_prop.mp,
        fun q hq => List.all_iff_forall_prop.mp (h3 q hq), h4, h5, h6, h7⟩,
      fun h => ⟨fun q hq => List.all_iff_forall_prop.mpr (h.ascii q hq),
        fun q hq => (h.words q hq).imp id List.all_iff_forall_prop.mpr,
        fun q hq => List.all_iff_forall_prop.mpr (h.marks q hq), h.comments, h.upper,
        h.identifiers, h.followed⟩⟩

/-- A table name with the schema. -/
def withSchema (pgSchema t : List Char) : List Char := pgSchema ++ ".\"".toList ++ t ++ "\"".toList

section Words

variable (pgSchema : List Char)

/-- The words behind the first one, with the schema where the condition holds of the word before and
the word. -/
def rewriteWords (w : List Char → List Char → Bool) :
    List Char → List (List Char) → List (List Char)
  | _, [] => []
  | p, q :: gs => (if w p q then withSchema pgSchema q else q) :: rewriteWords w q gs

/-- The words when each identifier behind a keyword has the schema. -/
def qualifyReferences : List Char → List (List Char) → List (List Char) :=
  rewriteWords pgSchema fun p _ => isReference p

/-- The word behind a keyword is a table whose turn with that keyword was one of these. -/
def hadTurn (done : List Turn) (p q : List Char) : Bool :=
  isReference p && done.any fun t => t.2.toList == p && t.1 == q

/-- The words when each table has the schema whose turn was one of these. -/
def stage (done : List Turn) : List Char → List (List Char) → List (List Char) :=
  rewriteWords pgSchema (hadTurn done)

/-- The word ends with the spelling and has not got the schema. -/
def EndsWith (done : List Turn) (kw : String) (o p : List Char) : Prop :=
  kw.toList <:+ p ∧ hadTurn done o p = false

instance (done : List Turn) (kw : String) (o p : List Char) : Decidable (EndsWith done kw o p) :=
  inferInstanceAs (Decidable (_ ∧ _))

/-- Something with the schema stands behind the spelling. -/
def Blocked (p : List Char) (gs : List (List Char)) (done : List Turn) (kw : String) : Prop :=
  ∃ x ∈ spots [] p gs, EndsWith done kw x.before x.word ∧
    (pgSchema ++ ['.'] <+: x.next ∨ hadTurn done x.word x.next = true)

instance (p : List Char) (gs : List (List Char)) (done : List Turn) (kw : String) :
    Decidable (Blocked pgSchema p gs done kw) :=
  inferInstanceAs (Decidable (∃ x ∈ spots [] p gs, _))

/-- What a turn qualifies after the turns that are done: all references to the table behind the
keyword, and nothing else. -/
structure RightTurn (p : List Char) (gs : List (List Char)) (done : List Turn) (t : Turn) :
    Prop where
  idle : Blocked pgSchema p gs done t.2 → ∀ x ∈ spots [] p gs, ¬(x.word = t.2.toList ∧ x.next = t.1)
  exact : ¬Blocked pgSchema p gs done t.2 → ∀ x ∈ spots [] p gs,
    EndsWith (done ++ [t]) t.2 x.before x.word → t.1 <+: x.next → x.word = t.2.toList ∧ x.next = t.1

instance (p : List Char) (gs : List (List Char)) (done : List Turn) (t : Turn) :
    Decidable (RightTurn pgSchema p gs done t) :=
  decidable_of_iff
    ((Blocked pgSchema p gs done t.2 →
        ∀ x ∈ spots [] p gs, ¬(x.word = t.2.toList ∧ x.next = t.1)) ∧
      (¬Blocked pgSchema p gs done t.2 → ∀ x ∈ spots [] p gs,
        EndsWith (done ++ [t]) t.2 x.before x.word → t.1 <+: x.next →
          x.word = t.2.toList ∧ x.next = t.1))
    ⟨fun h => ⟨h.1, h.2⟩, fun h => ⟨h.1, h.2⟩⟩

/-- Every turn that is left is right, and no table is without a turn. -/
def RightTurns (p : List Char) (gs : List (List Char)) : List Turn → List Turn → Prop
  | done, [] => ∀ x ∈ spots [] p gs, isReference x.word = true → hadTurn done x.word x.next = true
  | done, t :: ts => RightTurn pgSchema p gs done t ∧ RightTurns p gs (done ++ [t]) ts

instance decidableRightTurns (p : List Char) (gs : List (List Char)) :
    ∀ done ts, Decidable (RightTurns pgSchema p gs done ts)
  | _, [] => inferInstanceAs (Decidable (∀ x ∈ spots [] p gs, _))
  | done, t :: ts =>
    have := decidableRightTurns p gs (done ++ [t]) ts
    inferInstanceAs (Decidable (_ ∧ _))

end Words

section Names

variable (tables : CaseTables)

/-- The table names behind `FROM` and behind the words that end with `JOIN`. -/
def namesBehind : List Char → List (List Char) → List (List Char)
  | _, [] => []
  | p, q :: gs =>
    (if introducesTable tables p then (tableNameOf tables q).toList else []) ++ namesBehind q gs

/-- The turns of a query: its names in the order in which they first occur, each with all
spellings. -/
def turns (p : List Char) (gs : List (List Char)) : List Turn :=
  (namesBehind tables p gs).reverse.dedup.reverse ×ˢ prefixKeywords

end Names

section Extraction

variable {tables : CaseTables} {p : List Char} {gs : List (List Char)}

theorem dedup_append_singleton (l : List (List Char)) (x : List Char) :
    (l ++ [x]).reverse.dedup.reverse =
      if x ∈ l.reverse.dedup.reverse then l.reverse.dedup.reverse
      else l.reverse.dedup.reverse ++ [x] := by
  have hmem : x ∈ l.reverse.dedup.reverse ↔ x ∈ l.reverse := by simp
  rw [List.reverse_append, List.reverse_singleton, List.singleton_append, List.dedup_cons]
  by_cases hx : x ∈ l.reverse
  · rw [if_pos hx, if_pos (hmem.mpr hx)]
  · rw [if_neg hx, if_neg fun h => hx (hmem.mp h), List.reverse_cons]

theorem collectTables_cons (names : List (List Char)) (q : List Char) :
    collectTables tables names (p :: q :: gs) =
      collectTables tables (if introducesTable tables p then
        match tableNameOf tables q with
        | some name => if name ∈ names then names else names ++ [name]
        | none => names
      else names) (q :: gs) := rfl

theorem collectTables_eq (l : List (List Char)) :
    collectTables tables l.reverse.dedup.reverse (p :: gs) =
      (l ++ namesBehind tables p gs).reverse.dedup.reverse := by
  induction gs generalizing l p with
  | nil =>
    rw [namesBehind, List.append_nil]
    rfl
  | cons q gs ih =>
    rw [collectTables_cons, namesBehind, ← List.append_assoc, ← ih]
    congr 1
    by_cases hp : introducesTable tables p = true
    · rw [if_pos hp, if_pos hp]
      cases tableNameOf tables q with
      | none => rw [Option.toList_none, List.append_nil]
      | some name => rw [Option.toList_some, dedup_append_singleton]
    · rw [if_neg hp, if_neg hp, List.append_nil]

theorem extractTableNames_join
    (h : ∀ q ∈ p :: gs, q ≠ [] ∧ ∀ c ∈ q, isWhitespace c = false) :
    extractTableNames tables (join ' ' p gs) =
      (namesBehind tables p gs).reverse.dedup.reverse := by
  unfold extractTableNames
  rw [splitWhitespace_join h]
  exact collectTables_eq []

theorem foldl_addSchemaPrefix_turns (names : List (List Char)) (pgSchema s : List Char) :
    names.foldl (addSchemaPrefix pgSchema) s =
      (names ×ˢ prefixKeywords).foldl (fun s t => prefixAfter t.1 pgSchema s t.2) s := by
  show _ = (names.flatMap fun n => prefixKeywords.map (Prod.mk n)).foldl _ s
  rw [List.foldl_flatMap]
  rfl

end Extraction

/-- A turn replaces the name at the start of each word behind its spelling, unless the schema stands
behind the spelling. -/
def turnWords (pgSchema p : List Char) (gs : List (List Char)) (t : Turn) : List (List Char) :=
  if contains (behind t.2 (pgSchema ++ ['.'])) (join ' ' p gs) then gs
  else replaceSegments t.2.toList t.1 (withSchema pgSchema t.1) p gs

/-- No space in a word, and no quote at its start. -/
def Unquoted (gs : List (List Char)) : Prop := ∀ q ∈ gs, ' ' ∉ q ∧ q.head? ≠ some '"'

/-- A name of a turn that the parser can make from words without quotes. -/
structure PlainTurn (t : Turn) : Prop where
  spelling : t.2 ∈ prefixKeywords
  space : ' ' ∉ t.1
  quote : '"' ∉ t.1

/-- One name at the start of a word got the schema. -/
def Replaced (pgSchema a b : List Char) : Prop :=
  ∃ n r, '"' ∉ n ∧ ' ' ∉ n ∧ a = n ++ r ∧ b = withSchema pgSchema n ++ r

section Turns

variable {pgSchema p : List Char} {gs : List (List Char)} {t : Turn}

theorem exists_of_anyPair {P : List Char → List Char → Prop} (h : AnyPair P p gs) :
    ∃ a, ∃ q ∈ gs, P a q := by
  induction gs generalizing p with
  | nil => exact absurd h id
  | cons q gs ih =>
    rcases h with h | h
    · exact ⟨p, q, List.mem_cons_self, h⟩
    · obtain ⟨a, r, hr, hP⟩ := ih h
      exact ⟨a, r, List.mem_cons_of_mem _ hr, hP⟩

theorem forall₂_turnWords (h : PlainTurn t) :
    List.Forall₂ (Relation.ReflGen (Replaced pgSchema)) gs (turnWords pgSchema p gs t) := by
  unfold turnWords
  split_ifs
  · exact List.forall₂_same.mpr fun _ _ => .refl
  · refine (forall₂_replaceSegments _ _ _ _ _).imp fun a b hab => ?_
    rcases hab with rfl | ⟨r, ha, hb⟩
    · exact .refl
    · exact .single ⟨t.1, r, h.quote, h.space, ha, hb⟩

theorem space_withSchema {n : List Char} (hschema : ' ' ∉ pgSchema) (hn : ' ' ∉ n) :
    ' ' ∉ withSchema pgSchema n := by
  unfold withSchema
  simp [hschema, hn]

theorem head_withSchema (hquote : '"' ∉ pgSchema) (n : List Char) :
    (withSchema pgSchema n).head? ≠ some '"' := by
  unfold withSchema
  cases pgSchema with
  | nil => simp
  | cons c s =>
    have hc : c ≠ '"' := fun heq => hquote (by simp [heq])
    simpa using hc

theorem unquoted_turnWords (hschema : ' ' ∉ pgSchema) (hquote : '"' ∉ pgSchema) (h : PlainTurn t)
    (hgs : Unquoted gs) : Unquoted (turnWords pgSchema p gs t) := by
  have hwords : List.Forall₂ (Relation.ReflGen (Replaced pgSchema)) gs
      (turnWords pgSchema p gs t) :=
    forall₂_turnWords h
  generalize turnWords pgSchema p gs t = gs' at hwords
  induction hwords with
  | nil => exact hgs
  | @cons a b gs gs' hab _ ih =>
    intro q hq
    rcases List.mem_cons.mp hq with rfl | hq
    · have ha := hgs a List.mem_cons_self
      cases hab with
      | refl => exact ha
      | single hab =>
        obtain ⟨n, r, -, hn, rfl, rfl⟩ := hab
        have hspace : ' ' ∉ r := fun hr => ha.1 (List.mem_append_right _ hr)
        refine ⟨fun hmem => ?_, ?_⟩
        · rcases List.mem_append.mp hmem with hmem | hmem
          · exact space_withSchema hschema hn hmem
          · exact hspace hmem
        · rw [List.head?_append_of_ne_nil _ (by simp [withSchema])]
          exact head_withSchema hquote n
    · exact ih (fun r hr => hgs r (List.mem_cons_of_mem _ hr)) q hq

theorem prefixAfter_turnWords (hschema : ' ' ∉ pgSchema) (hquote : '"' ∉ pgSchema)
    (h : PlainTurn t) (hp : ' ' ∉ p) (hgs : Unquoted gs) :
    prefixAfter t.1 pgSchema (join ' ' p gs) t.2 = join ' ' p (turnWords pgSchema p gs t) := by
  have hnext := unquoted_turnWords (p := p) hschema hquote h hgs
  have hspaces : ∀ q ∈ gs, ' ' ∉ q := fun q hq => (hgs q hq).1
  revert hnext
  unfold turnWords
  by_cases hblocked : contains (behind t.2 (pgSchema ++ ['.'])) (join ' ' p gs) = true
  · rw [if_pos hblocked, prefixAfter_idle hblocked]
    exact fun _ => rfl
  · rw [if_neg hblocked]
    intro hnext
    have hreplace : replaceAll (t.2.toList ++ ' ' :: t.1)
        (t.2.toList ++ ' ' :: withSchema pgSchema t.1) (join ' ' p gs) =
          join ' ' p (replaceSegments t.2.toList t.1 (withSchema pgSchema t.1) p gs) :=
      replaceAll_join (keyword_ne_nil h.spelling) (keyword_notMem h.spelling (by decide)) h.space hp
        hspaces
    have hbare : (if contains (t.2.toList ++ ' ' :: t.1) (join ' ' p gs) &&
        !contains (behind t.2 (pgSchema ++ ['.'])) (join ' ' p gs) then
          replaceAll (t.2.toList ++ ' ' :: t.1) (t.2.toList ++ ' ' :: withSchema pgSchema t.1)
            (join ' ' p gs)
        else join ' ' p gs) =
          join ' ' p (replaceSegments t.2.toList t.1 (withSchema pgSchema t.1) p gs) := by
      rw [← hreplace]
      by_cases hname : contains (t.2.toList ++ ' ' :: t.1) (join ' ' p gs) = true
      · rw [if_pos (by simp [hname, hblocked])]
      · rw [if_neg (by simp [hname])]
        exact (replaceAll_of_absent fun hin => hname (contains_iff.mpr hin)).symm
    -- no word starts with a quote, so that the quoted name is not found
    have hnone : contains (behind t.2 ('"' :: t.1))
        (join ' ' p (replaceSegments t.2.toList t.1 (withSchema pgSchema t.1) p gs)) = false := by
      rw [Bool.eq_false_iff]
      intro hfound
      rw [contains_behind_iff h.spelling (by simp [h.space]) hp fun q hq => (hnext q hq).1] at hfound
      obtain ⟨-, q, hq, -, r, rfl⟩ := exists_of_anyPair hfound
      exact (hnext _ hq).2 rfl
    have halready : t.2.toList ++ ' ' :: pgSchema ++ ['.'] = behind t.2 (pgSchema ++ ['.']) := by
      simp [behind]
    have hquoted : t.2.toList ++ " \"".toList ++ t.1 = behind t.2 ('"' :: t.1) := by simp [behind]
    have hqualified : pgSchema ++ ".\"".toList ++ t.1 ++ "\"".toList = withSchema pgSchema t.1 := rfl
    unfold prefixAfter
    simp only [halready, hquoted, hqualified, hbare, hnone, Bool.false_and, Bool.false_eq_true,
      if_false]

theorem foldl_turnWords (hschema : ' ' ∉ pgSchema) (hquote : '"' ∉ pgSchema) (hp : ' ' ∉ p)
    (ts : List Turn) (hts : ∀ t ∈ ts, PlainTurn t) (hgs : Unquoted gs) :
    ts.foldl (fun s t => prefixAfter t.1 pgSchema s t.2) (join ' ' p gs) =
        join ' ' p (ts.foldl (turnWords pgSchema p) gs) ∧
      Unquoted (ts.foldl (turnWords pgSchema p) gs) := by
  induction ts generalizing gs with
  | nil => exact ⟨rfl, hgs⟩
  | cons t ts ih =>
    have ht := hts t List.mem_cons_self
    rw [List.foldl_cons, List.foldl_cons, prefixAfter_turnWords hschema hquote ht hp hgs]
    exact ih (fun u hu => hts u (List.mem_cons_of_mem _ hu))
      (unquoted_turnWords hschema hquote ht hgs)

end Turns

section Stages

variable {pgSchema o p q p' : List Char} {gs : List (List Char)} {done : List Turn} {t : Turn}
  {kw : String}

theorem stage_cons : stage pgSchema done p (q :: gs) =
    (if hadTurn done p q = true then withSchema pgSchema q else q) :: stage pgSchema done q gs := rfl

theorem qualifyReferences_cons : qualifyReferences pgSchema p (q :: gs) =
    (if isReference p = true then withSchema pgSchema q else q) ::
      qualifyReferences pgSchema q gs := rfl

theorem keyword_of_isReference {w : List Char} (h : isReference w = true) :
    ∃ kw ∈ prefixKeywords, w = kw.toList := by
  unfold isReference at h
  rw [Bool.or_eq_true, beq_iff_eq, beq_iff_eq] at h
  rcases h with h | h
  · exact ⟨"FROM", by decide, h⟩
  · exact ⟨"JOIN", by decide, h⟩

theorem hadTurn_iff : hadTurn done p q = true ↔
    isReference p = true ∧ ∃ t ∈ done, t.2.toList = p ∧ t.1 = q := by
  unfold hadTurn
  simp only [Bool.and_eq_true, List.any_eq_true, beq_iff_eq]

theorem hadTurn_append : hadTurn (done ++ [t]) p q = true ↔
    hadTurn done p q = true ∨ isReference p = true ∧ p = t.2.toList ∧ q = t.1 := by
  rw [hadTurn_iff, hadTurn_iff, ← and_or_left]
  apply and_congr_right
  intro _
  simp [or_and_right, exists_or, eq_comm]

theorem not_suffix_withSchema (h : kw ∈ prefixKeywords) : ¬kw.toList <:+ withSchema pgSchema q := by
  intro hs
  have hnil : kw.toList <:+ [] :=
    suffix_append_of_notMem (keyword_notMem h (by decide)) hs
  exact keyword_ne_nil h (List.suffix_nil.mp hnil)

theorem suffix_stage_iff (h : kw ∈ prefixKeywords) :
    kw.toList <:+ (if hadTurn done o p = true then withSchema pgSchema p else p) ↔
      EndsWith done kw o p := by
  unfold EndsWith
  by_cases hp : hadTurn done o p = true
  · rw [if_pos hp]
    simp [hp, not_suffix_withSchema h]
  · rw [if_neg hp]
    simp [hp]

theorem prefix_withSchema : pgSchema ++ ['.'] <+: withSchema pgSchema q := by
  unfold withSchema
  exact ⟨'"' :: q ++ ['"'], by simp⟩

theorem anyPair_stage_iff (h : kw ∈ prefixKeywords) (hp : kw.toList <:+ p' ↔ EndsWith done kw o p) :
    AnyPair (fun a b => kw.toList <:+ a ∧ pgSchema ++ ['.'] <+: b) p' (stage pgSchema done p gs) ↔
      ∃ x ∈ spots o p gs, EndsWith done kw x.before x.word ∧
        (pgSchema ++ ['.'] <+: x.next ∨ hadTurn done x.word x.next = true) := by
  induction gs generalizing o p p' with
  | nil => simp [stage, rewriteWords, AnyPair, spots]
  | cons q gs ih =>
    rw [stage_cons, AnyPair, spots, List.exists_mem_cons_iff, ih (suffix_stage_iff h), hp]
    apply or_congr_left
    apply and_congr_right
    intro _
    by_cases hq : hadTurn done p q = true
    · rw [if_pos hq]
      simp [hq, prefix_withSchema]
    · rw [if_neg hq]
      simp [hq]

/-- What the words of a plain query are in a row. -/
structure PlainSpot (x : Spot) : Prop where
  quote : '"' ∉ x.word ∧ '"' ∉ x.next
  apart : isReference x.before = true → isReference x.word = false
  upper : ∀ kw ∈ prefixKeywords, x.word = kw.toList → isReference x.word = true

theorem PlainSpot.isReference_before {x : Spot} (h : PlainSpot x)
    (href : isReference x.word = true) : isReference x.before = false := by
  rw [Bool.eq_false_iff]
  intro hbefore
  exact Bool.false_ne_true ((h.apart hbefore).symm.trans href)

theorem EndsWith.earlier (h : EndsWith (done ++ [t]) kw o p) : EndsWith done kw o p := by
  refine ⟨h.1, ?_⟩
  have hnot := h.2
  rw [Bool.eq_false_iff, Ne, hadTurn_append, not_or] at hnot
  exact Bool.eq_false_iff.mpr hnot.1

variable (pgSchema) in
/-- One word of a turn that is right there; the second word is what the next one follows. -/
theorem replaceSegments_stage (ht : PlainTurn t) (hspot : PlainSpot ⟨o, p, q⟩)
    (hp : t.2.toList <:+ p' ↔ EndsWith (done ++ [t]) t.2 o p)
    (hopen : EndsWith done t.2 o p → hadTurn done p q = false)
    (hexact : EndsWith (done ++ [t]) t.2 o p → t.1 <+: q → p = t.2.toList ∧ q = t.1) :
    ∃ q', (t.2.toList <:+ q' ↔ EndsWith (done ++ [t]) t.2 p q) ∧ ∀ rest,
      replaceSegments t.2.toList t.1 (withSchema pgSchema t.1) p'
          ((if hadTurn done p q = true then withSchema pgSchema q else q) :: rest) =
        (if hadTurn (done ++ [t]) p q = true then withSchema pgSchema q else q) ::
          replaceSegments t.2.toList t.1 (withSchema pgSchema t.1) q' rest := by
  by_cases hhit : EndsWith (done ++ [t]) t.2 o p ∧ t.1 <+: q
  · obtain ⟨hends, hname⟩ := hhit
    obtain ⟨rfl, rfl⟩ := hexact hends hname
    have hundone := hopen hends.earlier
    have hdone : hadTurn (done ++ [t]) t.2.toList t.1 = true :=
      hadTurn_append.mpr (.inr ⟨hspot.upper t.2 ht.spelling rfl, rfl, rfl⟩)
    refine ⟨[], ?_, fun rest => ?_⟩
    · have hnil : ¬t.2.toList <:+ [] := fun h => keyword_ne_nil ht.spelling (List.suffix_nil.mp h)
      simp [EndsWith, hdone, hnil]
    · rw [hundone, hdone, if_neg Bool.false_ne_true, if_pos rfl, replaceSegments,
        if_pos ⟨hp.mpr hends, List.prefix_refl _⟩, List.drop_length, List.append_nil]
  · -- a reference to the table behind the keyword would be a hit
    have hsame : hadTurn (done ++ [t]) p q = hadTurn done p q := by
      rw [Bool.eq_iff_iff, hadTurn_append]
      apply or_iff_left
      rintro ⟨href, rfl, rfl⟩
      have hbefore : isReference o = false := hspot.isReference_before href
      exact hhit ⟨⟨List.suffix_refl _, by simp [hadTurn, hbefore]⟩, List.prefix_refl _⟩
    refine ⟨if hadTurn done p q = true then withSchema pgSchema q else q, ?_, fun rest => ?_⟩
    · rw [suffix_stage_iff ht.spelling]
      unfold EndsWith
      rw [hsame]
    · rw [hsame, replaceSegments, if_neg]
      intro hc
      have hends := hp.mp hc.1
      have hundone := hopen hends.earlier
      rw [hundone, if_neg Bool.false_ne_true] at hc
      exact hhit ⟨hends, hc.2⟩

theorem replaceSegments_right (ht : PlainTurn t) (hspots : ∀ x ∈ spots o p gs, PlainSpot x)
    (hp : t.2.toList <:+ p' ↔ EndsWith (done ++ [t]) t.2 o p)
    (hopen : ∀ x ∈ spots o p gs, EndsWith done t.2 x.before x.word →
      hadTurn done x.word x.next = false)
    (hexact : ∀ x ∈ spots o p gs, EndsWith (done ++ [t]) t.2 x.before x.word → t.1 <+: x.next →
      x.word = t.2.toList ∧ x.next = t.1) :
    replaceSegments t.2.toList t.1 (withSchema pgSchema t.1) p' (stage pgSchema done p gs) =
      stage pgSchema (done ++ [t]) p gs := by
  induction gs generalizing o p p' with
  | nil => rfl
  | cons q gs ih =>
    rw [spots, List.forall_mem_cons] at hspots hopen hexact
    obtain ⟨q', hq', hhead⟩ := replaceSegments_stage pgSchema ht hspots.1 hp hopen.1
      hexact.1
    rw [stage_cons, hhead, ih hspots.2 hq' hopen.2 hexact.2, stage_cons]

theorem quote_mem_withSchema (r : List Char) : '"' ∈ withSchema pgSchema q ++ r := by
  unfold withSchema
  simp

theorem eq_of_replaced_plain {a b : List Char}
    (h : Relation.ReflTransGen (Replaced pgSchema) a b) (hb : '"' ∉ b) : a = b := by
  induction h with
  | refl => rfl
  | tail _ hstep _ =>
    obtain ⟨n, r, -, -, -, rfl⟩ := hstep
    exact absurd (quote_mem_withSchema r) hb

theorem eq_of_withSchema_append {n r : List Char} (hn : '"' ∉ n) (hq : '"' ∉ q)
    (h : withSchema pgSchema n ++ r = withSchema pgSchema q) : n = q ∧ r = [] := by
  have hcut : n ++ '"' :: r = q ++ ['"'] := by
    unfold withSchema at h
    simp only [List.append_assoc] at h
    simpa using List.append_cancel_left (List.append_cancel_left h)
  rcases List.append_eq_append_iff.mp hcut with ⟨a, rfl, ha⟩ | ⟨a, rfl, ha⟩
  · cases a with
    | nil => simpa using ha
    | cons c a =>
      rw [List.cons_append] at ha
      rw [← (List.cons.inj ha).1] at hq
      exact absurd (by simp) hq
  · cases a with
    | nil => simpa using ha.symm
    | cons c a =>
      rw [List.cons_append] at ha
      rw [← (List.cons.inj ha).1] at hn
      exact absurd (by simp) hn

theorem cases_of_replaced_name {a : List Char} (hq : '"' ∉ q)
    (h : Relation.ReflTransGen (Replaced pgSchema) a (withSchema pgSchema q)) :
    a = withSchema pgSchema q ∨ a = q := by
  rcases Relation.ReflTransGen.cases_tail h with heq | ⟨c, hac, n, r, hn, -, rfl, heq⟩
  · exact .inl heq.symm
  · right
    obtain ⟨rfl, rfl⟩ := eq_of_withSchema_append hn hq heq.symm
    rw [List.append_nil] at hac
    exact eq_of_replaced_plain hac hq

theorem exact_of_replaceSegments (ht : PlainTurn t) (hspots : ∀ x ∈ spots o p gs, PlainSpot x)
    (hp : t.2.toList <:+ p' ↔ EndsWith (done ++ [t]) t.2 o p)
    (hopen : ∀ x ∈ spots o p gs, EndsWith done t.2 x.before x.word →
      hadTurn done x.word x.next = false)
    (hlater : List.Forall₂ (Relation.ReflTransGen (Replaced pgSchema))
      (replaceSegments t.2.toList t.1 (withSchema pgSchema t.1) p' (stage pgSchema done p gs))
      (qualifyReferences pgSchema p gs)) :
    ∀ x ∈ spots o p gs, EndsWith (done ++ [t]) t.2 x.before x.word → t.1 <+: x.next →
      x.word = t.2.toList ∧ x.next = t.1 := by
  induction gs generalizing o p p' with
  | nil => exact fun x hx => by cases hx
  | cons q gs ih =>
    rw [spots, List.forall_mem_cons] at hspots hopen
    have hfirst : EndsWith (done ++ [t]) t.2 o p → t.1 <+: q → p = t.2.toList ∧ q = t.1 := by
      rintro hends ⟨r, rfl⟩
      have hundone := hopen.1 hends.earlier
      rw [stage_cons, hundone, if_neg Bool.false_ne_true, replaceSegments,
        if_pos ⟨hp.mpr hends, List.prefix_append _ _⟩, List.drop_left, qualifyReferences_cons,
        List.forall₂_cons] at hlater
      have hquote := hspots.1.quote.2
      by_cases href : isReference p = true
      · rw [if_pos href] at hlater
        rcases cases_of_replaced_name hquote hlater.1 with heq | heq
        · obtain ⟨hname, -⟩ := eq_of_withSchema_append ht.quote hquote heq
          obtain ⟨kw, hkw, rfl⟩ := keyword_of_isReference href
          rw [keyword_unique ht.spelling hkw hends.1 (List.suffix_refl _)]
          exact ⟨rfl, hname.symm⟩
        · rw [← heq] at hquote
          exact absurd (quote_mem_withSchema r) hquote
      · rw [if_neg href] at hlater
        have heq := eq_of_replaced_plain hlater.1 hquote
        rw [← heq] at hquote
        exact absurd (quote_mem_withSchema r) hquote
    obtain ⟨q', hq', hhead⟩ := replaceSegments_stage pgSchema ht hspots.1 hp hopen.1
      hfirst
    have hrest : List.Forall₂ (Relation.ReflTransGen (Replaced pgSchema))
        (replaceSegments t.2.toList t.1 (withSchema pgSchema t.1) q' (stage pgSchema done q gs))
        (qualifyReferences pgSchema q gs) := by
      rw [stage_cons, hhead, qualifyReferences_cons] at hlater
      exact (List.forall₂_cons.mp hlater).2
    rw [spots, List.forall_mem_cons]
    exact ⟨hfirst, ih hspots.2 hq' hopen.2 hrest⟩

theorem forall₂_foldl_turnWords (ts : List Turn) (hts : ∀ t ∈ ts, PlainTurn t)
    (gs : List (List Char)) :
    List.Forall₂ (Relation.ReflTransGen (Replaced pgSchema)) gs
      (ts.foldl (turnWords pgSchema p) gs) := by
  induction ts generalizing gs with
  | nil => exact List.forall₂_same.mpr fun _ _ => .refl
  | cons t ts ih =>
    have hstep : List.Forall₂ (Relation.ReflGen (Replaced pgSchema)) gs
        (turnWords pgSchema p gs t) :=
      forall₂_turnWords (hts t List.mem_cons_self)
    have hrest := ih (fun u hu => hts u (List.mem_cons_of_mem _ hu)) (turnWords pgSchema p gs t)
    rw [List.foldl_cons]
    exact forall₂_trans (fun _ _ _ => Relation.ReflTransGen.trans)
      (hstep.imp fun _ _ => Relation.ReflGen.to_reflTransGen) hrest

theorem stage_nil (pgSchema p : List Char) (gs : List (List Char)) :
    stage pgSchema [] p gs = gs := by
  induction gs generalizing p with
  | nil => rfl
  | cons q gs ih =>
    have hnone : hadTurn [] p q = false := by simp [hadTurn]
    rw [stage_cons, hnone, if_neg Bool.false_ne_true, ih]

theorem stage_eq_iff (hspots : ∀ x ∈ spots o p gs, PlainSpot x) :
    stage pgSchema done p gs = qualifyReferences pgSchema p gs ↔
      ∀ x ∈ spots o p gs, isReference x.word = true → hadTurn done x.word x.next = true := by
  induction gs generalizing o p with
  | nil => exact iff_of_true rfl fun x hx => absurd hx List.not_mem_nil
  | cons q gs ih =>
    rw [spots, List.forall_mem_cons] at hspots ⊢
    rw [stage_cons, qualifyReferences_cons, List.cons.injEq, ih hspots.2]
    apply and_congr_left
    intro _
    have hne : withSchema pgSchema q ≠ q := by
      intro heq
      have hmem : '"' ∈ withSchema pgSchema q ++ [] := quote_mem_withSchema []
      rw [List.append_nil, heq] at hmem
      exact hspots.1.quote.2 hmem
    by_cases href : isReference p = true
    · by_cases hdone : hadTurn done p q = true
      · simp [href, hdone]
      · simp [href, hdone, hne.symm]
    · have hdone : hadTurn done p q = false := by
        simp [hadTurn, href]
      simp [href, hdone]

theorem stage_idle (h : ∀ x ∈ spots o p gs, ¬(x.word = t.2.toList ∧ x.next = t.1)) :
    stage pgSchema (done ++ [t]) p gs = stage pgSchema done p gs := by
  induction gs generalizing o p with
  | nil => rfl
  | cons q gs ih =>
    rw [spots, List.forall_mem_cons] at h
    have hsame : hadTurn (done ++ [t]) p q = hadTurn done p q := by
      rw [Bool.eq_iff_iff, hadTurn_append]
      exact or_iff_left fun hc => h.1 hc.2
    rw [stage_cons, hsame, ih h.2, stage_cons]

theorem RightTurns.hadTurn {ts : List Turn} (h : RightTurns pgSchema p gs done ts) :
    ∀ x ∈ spots [] p gs, isReference x.word = true → hadTurn (done ++ ts) x.word x.next = true := by
  induction ts generalizing done with
  | nil =>
    rw [List.append_nil]
    exact h
  | cons t ts ih =>
    have := ih h.2
    rwa [List.append_assoc] at this

theorem unquoted_rewriteWords (hschema : ' ' ∉ pgSchema) (hquote : '"' ∉ pgSchema)
    (hgs : ∀ q ∈ gs, ' ' ∉ q) (hspots : ∀ x ∈ spots o p gs, PlainSpot x)
    (w : List Char → List Char → Bool) : Unquoted (rewriteWords pgSchema w p gs) := by
  induction gs generalizing o p with
  | nil => exact fun q hq => by cases hq
  | cons q gs ih =>
    rw [spots, List.forall_mem_cons] at hspots
    have hspace := hgs q List.mem_cons_self
    have hfirst : ∀ b : Bool, ' ' ∉ (if b = true then withSchema pgSchema q else q) ∧
        (if b = true then withSchema pgSchema q else q).head? ≠ some '"' := by
      intro b
      cases b with
      | true => exact ⟨space_withSchema hschema hspace, head_withSchema hquote q⟩
      | false => exact ⟨hspace, fun h => hspots.1.quote.2 (List.mem_of_mem_head? h)⟩
    intro r hr
    rcases List.mem_cons.mp hr with rfl | hr
    · exact hfirst _
    · exact ih (fun x hx => hgs x (List.mem_cons_of_mem _ hx)) hspots.2 r hr

/-- The turns that are left lead from a stage to the wanted words exactly if they are right. -/
theorem foldl_turnWords_iff (hschema : ' ' ∉ pgSchema) (hquote : '"' ∉ pgSchema) (hp : ' ' ∉ p)
    (hgs : ∀ q ∈ gs, ' ' ∉ q) (hspots : ∀ x ∈ spots [] p gs, PlainSpot x) (ts : List Turn)
    (hts : ∀ t ∈ ts, PlainTurn t) (hnodup : (done ++ ts).Nodup) :
    ts.foldl (turnWords pgSchema p) (stage pgSchema done p gs) = qualifyReferences pgSchema p gs ↔
      RightTurns pgSchema p gs done ts := by
  induction ts generalizing done with
  | nil => exact stage_eq_iff hspots
  | cons t ts ih =>
    have ht := hts t List.mem_cons_self
    have hts' : ∀ u ∈ ts, PlainTurn u := fun u hu => hts u (List.mem_cons_of_mem _ hu)
    have hfirst : ∀ d, t.2.toList <:+ p ↔ EndsWith d t.2 [] p := fun d => by
      simp [EndsWith, Sql.hadTurn, isReference]
    have hnext : (done ++ [t] ++ ts).Nodup := by simpa using hnodup
    have hunquoted : Unquoted (stage pgSchema done p gs) :=
      unquoted_rewriteWords hschema hquote hgs hspots _
    have hblocked : contains (behind t.2 (pgSchema ++ ['.']))
        (join ' ' p (stage pgSchema done p gs)) = true ↔ Blocked pgSchema p gs done t.2 := by
      rw [contains_behind_iff ht.spelling (by simp [hschema]) hp fun q hq => (hunquoted q hq).1]
      exact anyPair_stage_iff ht.spelling (hfirst done)
    rw [List.foldl_cons, RightTurns, turnWords]
    by_cases hb : Blocked pgSchema p gs done t.2
    · rw [if_pos (hblocked.mpr hb)]
      constructor
      · intro hrun
        -- the turns behind this one would be right without it
        have hothers : (done ++ ts).Nodup := hnodup.sublist (by simp)
        have hhad := ((ih hts' hothers).mp hrun).hadTurn
        have hidle : ∀ x ∈ spots [] p gs, ¬(x.word = t.2.toList ∧ x.next = t.1) := by
          intro x hx hc
          have href := (hspots x hx).upper t.2 ht.spelling hc.1
          obtain ⟨-, u, hu, hword, hname⟩ := hadTurn_iff.mp (hhad x hx href)
          have heq : u = t := Prod.ext (hname.trans hc.2) (String.toList_inj.mp (hword.trans hc.1))
          rw [heq] at hu
          exact (List.nodup_cons.mp (List.nodup_middle.mp hnodup)).1 hu
        refine ⟨⟨fun _ => hidle, fun hnot => absurd hb hnot⟩, ?_⟩
        rw [← stage_idle hidle] at hrun
        exact (ih hts' hnext).mp hrun
      · intro hright
        rw [← stage_idle (hright.1.idle hb)]
        exact (ih hts' hnext).mpr hright.2
    · rw [if_neg fun hc => hb (hblocked.mp hc)]
      have hopen : ∀ x ∈ spots [] p gs, EndsWith done t.2 x.before x.word →
          Sql.hadTurn done x.word x.next = false := by
        intro x hx hends
        rw [Bool.eq_false_iff]
        exact fun hhad => hb ⟨x, hx, hends, .inr hhad⟩
      constructor
      · intro hrun
        have hexact := exact_of_replaceSegments ht hspots (hfirst _) hopen
          (hrun ▸ forall₂_foldl_turnWords ts hts' _)
        rw [replaceSegments_right ht hspots (hfirst _) hopen hexact] at hrun
        exact ⟨⟨fun hc => absurd hc hb, fun _ => hexact⟩, (ih hts' hnext).mp hrun⟩
      · intro hright
        rw [replaceSegments_right ht hspots (hfirst _) hopen (hright.1.exact hb)]
        exact (ih hts' hnext).mpr hright.2

end Stages

section Plain

variable {tables : CaseTables} {pgSchema o p : List Char} {gs : List (List Char)}

theorem mem_of_mem_spots {x : Spot} (h : x ∈ spots o p gs) : x.word ∈ p :: gs ∧ x.next ∈ gs := by
  induction gs generalizing o p with
  | nil => exact absurd h List.not_mem_nil
  | cons q gs ih =>
    rcases List.mem_cons.mp h with rfl | h
    · exact ⟨List.mem_cons_self, List.mem_cons_self⟩
    · exact (ih h).imp (List.mem_cons_of_mem _) (List.mem_cons_of_mem _)

theorem before_of_mem_spots {x : Spot} (h : x ∈ spots o p gs) :
    x.before = o ∧ x.word = p ∨ ∃ y ∈ spots o p gs, y.word = x.before ∧ y.next = x.word := by
  induction gs generalizing o p with
  | nil => exact absurd h List.not_mem_nil
  | cons q gs ih =>
    rcases List.mem_cons.mp h with rfl | hx
    · exact .inl ⟨rfl, rfl⟩
    · right
      rcases ih hx with ⟨hbefore, hword⟩ | ⟨y, hy, hspot⟩
      · exact ⟨⟨o, p, q⟩, List.mem_cons_self, hbefore.symm, hword.symm⟩
      · exact ⟨y, List.mem_cons_of_mem _ hy, hspot⟩

theorem PlainQuery.spots (h : PlainQuery p gs) : ∀ x ∈ Sql.spots [] p gs, PlainSpot x := by
  intro x hx
  obtain ⟨hword, hnext⟩ := mem_of_mem_spots hx
  have hquote : ∀ q ∈ p :: gs, '"' ∉ q := fun q hq hc => h.marks q hq '"' hc (by decide)
  refine ⟨⟨hquote _ hword, hquote _ (List.mem_cons_of_mem _ hnext)⟩, fun href => ?_,
    fun kw hkw heq => ?_⟩
  · rcases before_of_mem_spots hx with ⟨hstart, -⟩ | ⟨y, hy, hbefore, hnext⟩
    · rw [hstart] at href
      exact absurd href (by decide)
    · rw [← hbefore] at href
      have hidentifier := h.identifiers y hy href
      rw [hnext] at hidentifier
      cases hcases : x.word with
      | nil => rfl
      | cons c w =>
        rw [hcases] at hidentifier
        unfold isIdentifier at hidentifier
        rw [Bool.and_eq_true, Bool.not_eq_true'] at hidentifier
        exact hidentifier.2
  · have hkeywords : ∀ kw ∈ prefixKeywords, isReference (kw.toList.map Char.toUpper) = true := by
      decide +kernel
    apply h.upper _ hword
    rw [heq]
    exact hkeywords kw hkw

theorem exists_last_word (p : List Char) (gs : List (List Char)) :
    ∃ front, ∃ q ∈ p :: gs, join ' ' p gs = front ++ q := by
  induction gs generalizing p with
  | nil => exact ⟨[], p, List.mem_cons_self, by simp [join, tail]⟩
  | cons q gs ih =>
    obtain ⟨front, r, hr, heq⟩ := ih q
    refine ⟨p ++ ' ' :: front, r, List.mem_cons_of_mem _ hr, ?_⟩
    rw [join, tail_cons, heq]
    simp

theorem withoutEnd_join (h : PlainQuery p gs) :
    withoutEnd (trim (join ' ' p gs)) = join ' ' p gs := by
  have hstart : (join ' ' p gs).dropWhile isWhitespace = join ' ' p gs := by
    obtain ⟨hne, hspace⟩ := h.words p List.mem_cons_self
    cases p with
    | nil => exact absurd rfl hne
    | cons c p =>
      rw [join_cons, List.dropWhile_cons_of_neg]
      simp [hspace c List.mem_cons_self]
  have hend : ∀ f : Char → Bool, (∀ q ∈ p :: gs, ∀ c ∈ q, f c = false) →
      (join ' ' p gs).rdropWhile f = join ' ' p gs := by
    intro f hf
    rw [List.rdropWhile_eq_self_iff]
    intro hne
    obtain ⟨front, q, hq, heq⟩ := exists_last_word p gs
    have hlast : (join ' ' p gs).getLast hne ∈ q := by
      apply List.mem_of_getLast?
      rw [← List.getLast?_append_of_ne_nil front (h.words q hq).1, ← heq]
      exact List.getLast?_eq_some_getLast hne
    rw [hf q hq _ hlast]
    exact Bool.false_ne_true
  have htrim : trim (join ' ' p gs) = join ' ' p gs := by
    unfold trim trimMatches
    rw [hstart, hend _ fun q hq => (h.words q hq).2]
  have hsemicolon : ∀ q ∈ p :: gs, ∀ c ∈ q, (c == ';') = false := by
    intro q hq c hc
    rw [beq_eq_false_iff_ne]
    rintro rfl
    exact h.marks q hq ';' hc (by decide)
  unfold withoutEnd trimEndMatches
  rw [htrim, hend _ hsemicolon, htrim]

theorem plainTurn_of_mem_turns (h : PlainQuery p gs) {t : Turn} (ht : t ∈ turns tables p gs) :
    PlainTurn t := by
  unfold turns at ht
  rw [← extractTableNames_join h.words] at ht
  obtain ⟨hname, hkw⟩ := List.mem_product.mp ht
  have hspace : ∀ c ∈ t.1, isWhitespace c = false := fun c hc =>
    not_whitespace_of_mem_extractTableNames hname hc
  refine ⟨hkw, fun hc => absurd (hspace ' ' hc) (by decide), fun hc => ?_⟩
  have hmem := mem_extractTableNames hname hc
  rcases List.mem_append.mp hmem with hmem | hmem
  · exact h.marks p List.mem_cons_self '"' hmem (by decide)
  · obtain ⟨q, hq, hmem⟩ := List.mem_flatMap.mp hmem
    rcases List.mem_cons.mp hmem with hmem | hmem
    · exact absurd hmem (by decide)
    · exact h.marks q (List.mem_cons_of_mem _ hq) '"' hmem (by decide)

/-- A plain query gets the schema at the tables behind its keywords, and nowhere else, exactly if
each turn is right. -/
theorem qualifyTables_eq_iff (hplain : PlainQuery p gs) (hschema : ' ' ∉ pgSchema)
    (hquote : '"' ∉ pgSchema) :
    qualifyTables tables pgSchema (withoutEnd (trim (join ' ' p gs))) =
        join ' ' p (qualifyReferences pgSchema p gs) ↔
      RightTurns pgSchema p gs [] (turns tables p gs) := by
  have hspace : ∀ q ∈ p :: gs, ' ' ∉ q := fun q hq hc =>
    absurd ((hplain.words q hq).2 ' ' hc) (by decide)
  have hp := hspace p List.mem_cons_self
  have hgs : ∀ q ∈ gs, ' ' ∉ q := fun q hq => hspace q (List.mem_cons_of_mem _ hq)
  have hspots := hplain.spots
  have hts : ∀ t ∈ turns tables p gs, PlainTurn t := fun t => plainTurn_of_mem_turns hplain
  have hnodup : ([] ++ turns tables p gs).Nodup :=
    (List.nodup_reverse.mpr (List.nodup_dedup _)).product (by decide)
  have hunquoted : Unquoted gs := by
    rw [← stage_nil pgSchema p gs]
    exact unquoted_rewriteWords hschema hquote hgs hspots _
  obtain ⟨hrun, hrunquoted⟩ := foldl_turnWords hschema hquote hp _ hts hunquoted
  have hwanted : ∀ q ∈ qualifyReferences pgSchema p gs, ' ' ∉ q := fun q hq =>
    (unquoted_rewriteWords hschema hquote hgs hspots _ q hq).1
  rw [withoutEnd_join hplain, qualifyTables, extractTableNames_join hplain.words,
    foldl_addSchemaPrefix_turns]
  show (turns tables p gs).foldl _ _ = _ ↔ _
  rw [hrun, ← foldl_turnWords_iff hschema hquote hp hgs hspots _ hts hnodup, stage_nil]
  constructor
  · exact join_injective (fun q hq => (hrunquoted q hq).1) hwanted
  · exact fun h => by rw [h]

/-- One table behind each keyword. -/
theorem qualifyTables_eq_join :
    qualifyTables CaseTables.ascii "public".toList
        (withoutEnd (trim (join ' ' "SELECT".toList (["*", "FROM", "accounts", "a", "JOIN", "logs",
          "b", "ON", "a.id", "=", "b.id"].map String.toList)))) =
      join ' ' "SELECT".toList (["*", "FROM", "public.\"accounts\"", "a", "JOIN",
        "public.\"logs\"", "b", "ON", "a.id", "=", "b.id"].map String.toList) :=
  (qualifyTables_eq_iff (by decide +kernel) (by decide) (by decide)).mpr (by decide +kernel)

/-- Of two joined tables the second one stays without a schema. -/
theorem qualifyTables_ne_join : ¬∀ (p : List Char) (gs : List (List Char)) (v : ValidatedSql),
    PlainQuery p gs → validateSql CaseTables.ascii (join ' ' p gs) "public".toList = .ok v →
      qualifyTables CaseTables.ascii "public".toList (withoutEnd (trim (join ' ' p gs))) =
        join ' ' p (qualifyReferences "public".toList p gs) := by
  intro h
  have hqualified := h "SELECT".toList (["*", "FROM", "accounts", "JOIN", "logs", "ON", "x", "=",
    "y", "JOIN", "blocks", "ON", "z", "=", "w"].map String.toList)
    { original := "SELECT * FROM accounts JOIN logs ON x = y JOIN blocks ON z = w".toList
      sanitised := ("SELECT * FROM public.\"accounts\" JOIN public.\"logs\" ON x = y " ++
        "JOIN blocks ON z = w LIMIT 1000").toList
      tableNames := ["accounts".toList, "logs".toList, "blocks".toList] }
    (by decide +kernel) (by decide +kernel)
  revert hqualified
  decide +kernel

end Plain

end Sql

end ForgeIndex
