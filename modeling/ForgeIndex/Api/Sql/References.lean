import ForgeIndex.Api.Sql.Limit
import ForgeIndex.Api.Sql.Qualify
import ForgeIndex.Lib.FromClause

/-!
# Table names without a schema

The rewriting reaches a table name only behind one of six spellings of a keyword and one space, and
only one name for each spelling.  A query is left without unqualified names exactly if it reaches each
of them.
-/

namespace ForgeIndex

open Text SqlLexer FromClause

namespace Sql

/-- The name that is replaced at the start of a text, behind the text that ends with a space. -/
def reachedAt (E : String → Option Found) (a b : List Char) : Option Found :=
  if a.getLast? = some ' ' then hitOf E a.dropLast b else none

/-- The query with a mark at each name that the rewriting reaches. -/
def markReached (E : String → Option Found) : List Char → List Char → List (Char × Bool)
  | _, [] => []
  | a, c :: s => (c, (reachedAt E a (c :: s)).isSome) :: markReached E (a ++ [c]) s

/-- The rewriting reaches every table name that has no schema. -/
def AllReached (E : String → Option Found) (sql : List Char) : Prop :=
  accepts .start (lexemesMarked (lexMarked false .plain (markReached E [] sql))) = true

/-- The mode is inside of a quoted identifier. -/
def inName : Mode → Bool
  | .inQuotes quote _ => quote == '"'
  | _ => false

/-- The mode is inside of a dollar quote. -/
def inDollarText : Mode → Bool
  | .inDollar _ _ => true
  | _ => false

/-- A place where a bare name is replaced: the name is an identifier and no keyword, it ends there, it
is no part of a quoted identifier (nor, with a dollar sign, of a dollar quote), and its end is not
taken for a keyword. -/
structure PlainPlace (a b table : List Char) : Prop where
  name : isName table = true
  outside : inName (modeAfter .plain a) = false
  dollar : inDollarText (modeAfter .plain a) = true → '$' ∉ table
  ends : ∀ c ∈ (b.drop table.length).head?, wordCont table c = false ∧ c ≠ '"'
  apart : (b.drop table.length).head? = some ' ' → ∀ kw ∈ prefixKeywords, ¬kw.toList <:+ table

instance (a b table : List Char) : Decidable (PlainPlace a b table) :=
  decidable_of_iff
    (isName table = true ∧ inName (modeAfter .plain a) = false ∧
      (inDollarText (modeAfter .plain a) = true → '$' ∉ table) ∧
      ((b.drop table.length).head?.toList.all fun c => wordCont table c = false ∧ c ≠ '"') = true ∧
      ((b.drop table.length).head? = some ' ' → ∀ kw ∈ prefixKeywords, ¬kw.toList <:+ table))
    ⟨fun h => ⟨h.1, h.2.1, h.2.2.1,
        fun c hc => List.all_iff_forall_prop.mp h.2.2.2.1 c (Option.mem_toList.mpr hc), h.2.2.2.2⟩,
      fun h => ⟨h.1, h.2, h.3,
        List.all_iff_forall_prop.mpr fun c hc => h.4 c (Option.mem_toList.mp hc), h.5⟩⟩

/-- The rewriting hits whole names only. -/
def Regular (E : String → Option Found) (sql : List Char) : Prop :=
  ∀ n ≤ sql.length, ∀ f ∈ reachedAt E (sql.take n) (sql.drop n), f.quoted = false →
    PlainPlace (sql.take n) (sql.drop n) f.table

instance (E : String → Option Found) (sql : List Char) : Decidable (Regular E sql) :=
  inferInstanceAs (Decidable (∀ n ≤ sql.length, ∀ f ∈ reachedAt E (sql.take n) (sql.drop n), _))

instance (E : String → Option Found) (sql : List Char) : Decidable (AllReached E sql) :=
  inferInstanceAs (Decidable (_ = true))

section Places

variable {E : String → Option Found}

theorem Regular.place {sql a b : List Char} (h : Regular E sql) (hsql : sql = a ++ b) {f : Found}
    (hf : reachedAt E a b = some f) (hbare : f.quoted = false) : PlainPlace a b f.table := by
  have hle : a.length ≤ sql.length := by
    rw [hsql, List.length_append]
    omega
  have := h a.length hle f
  rw [hsql, List.take_left, List.drop_left] at this
  exact this hf hbare

/-- A text is empty or ends with a space. -/
def AfterSpace (a : List Char) : Prop := a = [] ∨ a.getLast? = some ' '

theorem afterSpace_append (a : List Char) : AfterSpace (a ++ [' ']) := .inr (by simp)

theorem suffix_segment_iff {a p : List Char} (ha : AfterSpace a) {kw : String}
    (h : kw ∈ prefixKeywords) : kw.toList <:+ a ++ p ↔ kw.toList <:+ p := by
  constructor
  · intro hs
    rcases ha with rfl | ha
    · exact hs
    · obtain ⟨front, rfl⟩ := List.getLast?_eq_some_iff.mp ha
      rw [List.append_assoc] at hs
      exact suffix_append_of_notMem (keyword_notMem h (by decide)) hs
  · exact fun hs => hs.trans (List.suffix_append _ _)

theorem reachedAt_segment (hE : ∀ kw f, E kw = some f → ' ' ∉ f.text) {a p q : List Char}
    {gs : List (List Char)} (ha : AfterSpace a) :
    reachedAt E (a ++ p ++ [' ']) (join ' ' q gs) = hitOf E p q := by
  unfold reachedAt
  rw [if_pos (by simp), List.dropLast_concat]
  apply Option.ext
  intro f
  rw [hitOf_iff, hitOf_iff]
  apply exists_congr
  intro kw
  apply and_congr_right
  intro hkw
  rw [suffix_segment_iff ha hkw]
  apply and_congr_right
  intro _
  apply and_congr_right
  intro hf
  rw [isPrefix_join_iff (hE kw f hf)]

theorem reachedAt_inside {a : List Char} (h : a.getLast? ≠ some ' ') (b : List Char) :
    reachedAt E a b = none := if_neg h

theorem Found.text_ne_nil {f : Found} (h : f.quoted = false → isName f.table = true) :
    f.text ≠ [] := by
  cases hquoted : f.quoted with
  | true =>
    rw [Found.text_quoted hquoted]
    simp
  | false =>
    have hname := h hquoted
    rw [Found.text_bare hquoted]
    intro hnil
    rw [hnil] at hname
    cases hname

theorem reachedAt_space {sql a b : List Char} (hE : ∀ kw f, E kw = some f → ' ' ∉ f.text)
    (hregular : Regular E sql) (hsql : sql = a ++ ' ' :: b) : reachedAt E a (' ' :: b) = none := by
  rw [Option.eq_none_iff_forall_ne_some]
  intro f hf
  have hhit := hf
  unfold reachedAt at hhit
  split_ifs at hhit
  obtain ⟨kw, -, -, hfound, htext⟩ := hitOf_iff.mp hhit
  have hspace := hE kw f hfound
  have hempty : f.text = [] := by
    cases hcases : f.text with
    | nil => rfl
    | cons c text =>
      rw [hcases, List.cons_prefix_cons] at htext
      rw [hcases, htext.1] at hspace
      simp at hspace
  exact Found.text_ne_nil (fun hquoted => (hregular.place hsql hf hquoted).name) hempty

theorem markReached_inside {a : List Char} (h : a.getLast? ≠ some ' ') {w : List Char}
    (hw : ' ' ∉ w) (s : List Char) :
    markReached E a (w ++ s) = w.map (fun c => (c, false)) ++ markReached E (a ++ w) s := by
  induction w generalizing a with
  | nil => simp
  | cons c w ih =>
    have hc : c ≠ ' ' := fun heq => hw (by simp [heq])
    rw [List.cons_append, markReached, reachedAt_inside h,
      ih (by simpa using hc) fun hmem => hw (List.mem_cons_of_mem _ hmem)]
    simp

theorem markReached_plain {a : List Char} {w s : List Char} (hw : ' ' ∉ w)
    (h : reachedAt E a (w ++ s) = none) :
    markReached E a (w ++ s) = w.map (fun c => (c, false)) ++ markReached E (a ++ w) s := by
  cases w with
  | nil => simp
  | cons c w =>
    have hc : c ≠ ' ' := fun heq => hw (by simp [heq])
    rw [List.cons_append] at h ⊢
    rw [markReached, h, markReached_inside (by simpa using hc)
      fun hmem => hw (List.mem_cons_of_mem _ hmem)]
    simp

theorem markReached_hit {a : List Char} {w s : List Char} (hw : ' ' ∉ w) (hne : w ≠ []) {f : Found}
    (h : reachedAt E a (w ++ s) = some f) :
    markReached E a (w ++ s) = markFirst w ++ markReached E (a ++ w) s := by
  cases w with
  | nil => exact absurd rfl hne
  | cons c w =>
    have hc : c ≠ ' ' := fun heq => hw (by simp [heq])
    rw [List.cons_append] at h ⊢
    rw [markReached, h, markReached_inside (by simpa using hc)
      fun hmem => hw (List.mem_cons_of_mem _ hmem)]
    simp [markFirst]

theorem keyword_identCont {kw : String} (h : kw ∈ prefixKeywords) {c : Char}
    (hc : identCont c = false) : c ∉ kw.toList := by
  apply keyword_notMem h
  unfold identCont identStart at hc
  simp only [Bool.or_eq_false_iff] at hc
  exact hc.1.1.1.1

theorem noOverlap_of_regular {sql : List Char} (hE : ∀ kw f, E kw = some f → ' ' ∉ f.text)
    (hregular : Regular E sql) {a p : List Char} {gs : List (List Char)}
    (hsql : sql = a ++ join ' ' p gs) (ha : AfterSpace a) : NoOverlap E p gs := by
  induction gs generalizing a p with
  | nil => trivial
  | cons q gs ih =>
    have hnext : sql = (a ++ p ++ [' ']) ++ join ' ' q gs := by
      rw [hsql]
      simp [join, tail]
    refine ⟨fun hne kw hkw hs => ?_, ih hnext (afterSpace_append _)⟩
    cases hhit : hitOf E p q with
    | none =>
      rw [rest_of_none hhit]
      exact hs
    | some f =>
      obtain ⟨-, -, -, -, r, hr⟩ := hitOf_iff.mp hhit
      rw [rest_of_some hhit, ← hr, List.drop_left]
      rw [← hr] at hs
      cases hquoted : f.quoted with
      | true =>
        rw [Found.text_quoted hquoted, List.append_assoc] at hs
        exact suffix_append_of_notMem (keyword_notMem hkw (by decide)) hs
      | false =>
        have htext := Found.text_bare hquoted
        have hplace := hregular.place hnext ((reachedAt_segment hE ha).trans hhit) hquoted
        have hdrop : (join ' ' q gs).drop f.table.length = join ' ' r gs := by
          rw [← hr, htext, join_append, List.drop_left]
        have hends := hplace.ends
        have hapart := hplace.apart
        rw [hdrop] at hends hapart
        rw [htext] at hs
        cases r with
        | nil =>
          obtain ⟨r, gs', rfl⟩ := List.exists_cons_of_ne_nil hne
          rw [List.append_nil] at hs
          exact absurd hs (hapart rfl kw hkw)
        | cons c r =>
          have hc := identCont_of_wordCont (hends c rfl).1
          exact (suffix_append_of_notMem (keyword_identCont hkw hc) hs).trans
            (List.suffix_cons c r)

end Places

section Reading

variable {E : String → Option Found} {pgSchema : List Char}

/-- The mode is inside of quotes or of a comment, behind a space. -/
def Enclosed : Mode → Prop
  | .inQuotes quote _ => quote = '\'' ∨ quote = '"'
  | .inEscape _ _ | .inDollar _ _ | .line | .gapLine _ | .block _ => True
  | _ => False

theorem mode_space {m : Mode}
    (hquote : ∀ q v, m = .inQuotes q v ∨ m = .quoteEnd q v → q = '\'' ∨ q = '"')
    {c : Char} (hc : isSpace c = true) :
    (step m c).2 = .plain ∨ (∃ newline, (step m c).2 = .gap newline) ∨ Enclosed (step m c).2 := by
  -- outside of quotes and comments a space ends the token, inside it is one character more
  by_cases hclosed : m.closed = true
  · rw [step_space hclosed hc fun q v h => hquote q v (.inr h)]
    rcases afterSpace_cases m c with hplain | hgap
    · exact .inl hplain
    · exact .inr (.inl hgap)
  · have hne (d : Char) (hd : isSpace d = false) : c ≠ d := ne_of_pred hc hd
    cases m with
    | inQuotes quote value =>
      have hq := hquote quote value (.inl rfl)
      have hcq : c ≠ quote := by
        rcases hq with rfl | rfl
        · exact hne _ (by decide)
        · exact hne _ (by decide)
      rw [step, if_neg hcq]
      exact .inr (.inr hq)
    | inEscape stray text =>
      rw [step, if_neg (hne _ (by decide)), if_neg (hne _ (by decide))]
      exact .inr (.inr trivial)
    | escaped stray text => exact .inr (.inr trivial)
    | inDollar tag text =>
      rw [step, if_neg (hne _ (by decide))]
      exact .inr (.inr trivial)
    | dollarEnd tag text part =>
      rw [step, if_neg (hne _ (by decide)), tagCont_space hc, if_neg Bool.false_ne_true]
      exact .inr (.inr trivial)
    | line =>
      unfold step
      dsimp only
      split_ifs
      · exact .inl rfl
      · exact .inr (.inr trivial)
    | gapLine newline =>
      unfold step
      dsimp only
      split_ifs
      · exact .inr (.inl ⟨true, rfl⟩)
      · exact .inr (.inr trivial)
    | block | blockStar | blockSlash =>
      rw [step, if_neg (hne _ (by decide)), if_neg (hne _ (by decide))]
      exact .inr (.inr trivial)
    | _ => exact absurd rfl hclosed

/-- From readings that agree behind the next space on, the second one expands the first one. -/
def Continues (m : Mode) (X : List (Char × Bool)) (Y : List Char) : Prop :=
  ∀ b m₁ m₁', (step m₁ ' ').2 = (step m ' ').2 → Sim b m₁ m₁' →
    Expands (lexemesMarked (lexMarked b m₁ X)) (owed b ++ lexemes (lexFrom m₁' Y))

theorem expands_segment {m m' m₀ : Mode} {b : Bool} {u : List Char} {X : List (Char × Bool)}
    {Y : List Char} (h : Sim b m m') (hcontinues : Continues m₀ X Y)
    (hspace : (step (modeAfter m u) ' ').2 = (step m₀ ' ').2) :
    Expands (lexemesMarked (lexMarked b m (u.map (fun c => (c, false)) ++ X)))
      (owed b ++ lexemes (lexFrom m' (u ++ Y))) :=
  expands_run h fun b' m₁' hsim => hcontinues b' _ m₁' hspace hsim

theorem markFirst_append {w : List Char} (h : w ≠ []) (r : List Char) :
    markFirst (w ++ r) = markFirst w ++ r.map fun c => (c, false) := by
  obtain ⟨c, w, rfl⟩ := List.exists_cons_of_ne_nil h
  simp [markFirst]

theorem markFirst_fst (w : List Char) : (markFirst w).map Prod.fst = w := by
  cases w with
  | nil => rfl
  | cons c w =>
    rw [markFirst, List.map_cons, List.map_map]
    simp [Function.comp_def]

section Hit

variable {f : Found} {r : List Char} {X : List (Char × Bool)} {Y : List Char}

theorem head_of_space {c : Char} (hY : ∀ c ∈ Y.head?, c = ' ') (hr : ∀ d ∈ r.head?, d ≠ c)
    (hc : c ≠ ' ') : (r ++ Y).head? ≠ some c := by
  intro h
  cases r with
  | nil => exact hc (hY c h)
  | cons d r => exact hr d rfl (Option.some.inj h)

theorem expands_hit_bare (hschema : isName pgSchema = true) (htable : isName f.table = true)
    (hbare : f.quoted = false) (hX : ∀ x ∈ X.head?, x.1 = ' ') (hY : ∀ c ∈ Y.head?, c = ' ')
    (hends : ∀ c ∈ r.head?, wordCont f.table c = false ∧ c ≠ '"')
    (hcontinues : Continues (modeAfter .plain (f.text ++ r)) X Y) :
    Expands (lexemesMarked (lexMarked false .plain (markFirst (f.text ++ r) ++ X)))
      (lexemes (lex (f.qualified pgSchema ++ r ++ Y))) := by
  have htext := Found.text_bare hbare
  have hne := Found.text_ne_nil fun _ => htable
  have hqualified : f.qualified pgSchema ++ r ++ Y =
      pgSchema ++ '.' :: '"' :: f.table ++ '"' :: (r ++ Y) := by
    simp [Found.qualified]
  rw [markFirst_append hne, List.append_assoc, hqualified, htext]
  refine expands_bare hschema htable false ?_ ?_ ?_
  · intro x hx
    cases r with
    | nil =>
      rw [hX x hx]
      rfl
    | cons c r =>
      rw [← Option.some.inj hx]
      exact (hends c rfl).1
  · exact head_of_space hY (fun d hd => (hends d hd).2) (by decide)
  · refine expands_segment (b := false) ⟨rfl, by simp⟩ hcontinues ?_
    -- the bare name ends here, and from the next character on both texts are read alike
    obtain ⟨c, v, heq, hc, hv, -⟩ := isName_iff.mp htable
    have hword : ∀ w, modeAfter (.word w) v = .word (w ++ v) := by
      clear heq
      induction v with
      | nil => exact fun w => by simp [modeAfter]
      | cons d v ih =>
        intro w
        have hd := hv d List.mem_cons_self
        rw [modeAfter, step, if_pos hd, ih fun e he => hv e (List.mem_cons_of_mem _ he)]
        simp
    have hmode : modeAfter .plain (f.text ++ r) = modeAfter (.word (c :: v)) r := by
      rw [htext, heq, List.cons_append, modeAfter]
      show modeAfter (start c).2 (v ++ r) = _
      rw [start_of_identStart hc, modeAfter_append, hword]
      rfl
    rw [hmode]
    cases r with
    | nil => rfl
    | cons d r =>
      have hbegins : begins (.word (c :: v)) d = true := by
        show (!wordCont (c :: v) d) = true
        rw [← heq, (hends d rfl).1]
        rfl
      rw [modeAfter, modeAfter, step_of_begins hbegins]
      rfl

theorem expands_hit_quoted (hschema : isName pgSchema = true) (hquoted : f.quoted = true)
    (hcontinues : Continues (modeAfter .plain (f.text ++ r)) X Y) :
    Expands (lexemesMarked (lexMarked false .plain (markFirst (f.text ++ r) ++ X)))
      (lexemes (lex (f.qualified pgSchema ++ r ++ Y))) := by
  have htext := Found.text_quoted hquoted
  have hqualified : f.qualified pgSchema ++ r ++ Y =
      pgSchema ++ '.' :: '"' :: ((f.table ++ '"' :: r) ++ Y) := by
    simp [Found.qualified]
  have hmark : markFirst (f.text ++ r) ++ X =
      ('"', true) :: ((f.table ++ '"' :: r).map (fun c => (c, false)) ++ X) := by
    rw [htext]
    simp [markFirst]
  rw [hqualified, hmark]
  apply expands_quoted hschema
  refine expands_segment ⟨rfl, fun _ => ⟨[], .inl rfl⟩⟩ hcontinues ?_
  rw [htext, List.append_assoc]
  rfl

theorem inert_kind {m m' : Mode} (h : kind m = kind m') (c : Char) : Inert m c ↔ Inert m' c := by
  have hkind : ∀ m, Inert (kind m) c ↔ Inert m c := by
    intro m
    cases m <;> exact Iff.rfl
  rw [← hkind m, h, hkind]

theorem inert_of_identCont {m : Mode} (h : Enclosed m) {c : Char}
    (hc : identCont c = true ∨ c = '.') (hdollar : inDollarText m = true → c ≠ '$') : Inert m c := by
  have hne : ∀ d : Char, identCont d = false → d ≠ '.' → c ≠ d := by
    rintro d hd hdot rfl
    rcases hc with hc | hc
    · rw [hd] at hc
      cases hc
    · exact hdot hc
  have hline : isNewline c = false := by
    have hn := hne '\n' (by decide) (by decide)
    have hr := hne '\r' (by decide) (by decide)
    simp [isNewline, hn, hr]
  cases m with
  | inQuotes quote value =>
    have hq : quote = '\'' ∨ quote = '"' := h
    rcases hq with rfl | rfl
    · exact hne '\'' (by decide) (by decide)
    · exact hne '"' (by decide) (by decide)
  | inEscape stray text =>
    exact ⟨hne '\'' (by decide) (by decide), hne '\\' (by decide) (by decide)⟩
  | inDollar tag text => exact hdollar rfl
  | line | gapLine => exact hline
  | block n => exact ⟨hne '*' (by decide) (by decide), hne '/' (by decide) (by decide)⟩
  | _ => exact absurd h id

theorem inert_quote {m : Mode} (h : Enclosed m) (hname : inName m = false) : Inert m '"' := by
  cases m with
  | inQuotes quote value =>
    have hq : quote = '\'' ∨ quote = '"' := h
    rcases hq with rfl | rfl
    · show '"' ≠ '\''
      decide
    · cases hname
  | inEscape stray text =>
    show '"' ≠ '\'' ∧ '"' ≠ '\\'
    decide
  | inDollar tag text =>
    show '"' ≠ '$'
    decide
  | line | gapLine =>
    show isNewline '"' = false
    decide
  | block n =>
    show '"' ≠ '*' ∧ '"' ≠ '/'
    decide
  | _ => exact absurd h id

theorem begins_of_enclosed {m : Mode} (h : Enclosed m) (c : Char) : begins m c = false := by
  cases m with
  | inQuotes | inEscape | inDollar | line | gapLine | block => rfl
  | _ => exact absurd h id

section Enclosed

variable {m m' : Mode} {b : Bool} (hschema : isName pgSchema = true) (hdollar : '$' ∉ pgSchema)
  (hm : Enclosed m) (hsim : Sim b m m')

include hschema hdollar hm hsim

theorem inert_schema : ∀ c ∈ pgSchema ++ ['.'], Inert m' c := by
  intro c hc
  rw [inert_kind hsim.same.symm]
  rcases List.mem_append.mp hc with hc | hc
  · apply inert_of_identCont hm (.inl (identCont_of_isName hschema hc))
    rintro - rfl
    exact hdollar hc
  · have hpoint : c = '.' := List.mem_singleton.mp hc
    rw [hpoint]
    exact inert_of_identCont hm (.inr rfl) fun _ => by decide

theorem expands_hit_enclosed_quoted (hquoted : f.quoted = true)
    (hcontinues : Continues (modeAfter m (f.text ++ r)) X Y) :
    Expands (lexemesMarked (lexMarked b m (markFirst (f.text ++ r) ++ X)))
      (owed b ++ lexemes (lexFrom m' (f.qualified pgSchema ++ r ++ Y))) := by
  have htext := Found.text_quoted hquoted
  have hqualified : f.qualified pgSchema ++ r ++ Y =
      (pgSchema ++ ['.']) ++ ((f.text ++ r) ++ Y) := by
    rw [htext]
    simp [Found.qualified]
  obtain ⟨hkind, hlex⟩ := lexFrom_inert (inert_schema hschema hdollar hm hsim)
  have hmark : lexMarked b m (markFirst (f.text ++ r) ++ X) =
      lexMarked b m ((f.text ++ r).map (fun c => (c, false)) ++ X) := by
    rw [htext]
    show lexMarked b m (('"', true) :: _) = lexMarked b m (('"', false) :: _)
    rw [lexMarked, lexMarked, begins_of_enclosed hm, if_neg Bool.false_ne_true,
      if_neg Bool.false_ne_true]
  rw [hmark, hqualified, hlex]
  exact expands_segment ⟨hsim.same.trans hkind.symm, hsim.marked⟩ hcontinues rfl

/-- A bare name inside of quotes or of a comment, but not of a quoted identifier. -/
theorem expands_hit_enclosed_bare (hquoted : f.quoted = false) (htable : isName f.table = true)
    (hname : inName m = false) (htag : inDollarText m = true → '$' ∉ f.table)
    (hcontinues : Continues (modeAfter m (f.text ++ r)) X Y) :
    Expands (lexemesMarked (lexMarked b m (markFirst (f.text ++ r) ++ X)))
      (owed b ++ lexemes (lexFrom m' (f.qualified pgSchema ++ r ++ Y))) := by
  have htext := Found.text_bare hquoted
  have hne := Found.text_ne_nil fun _ => htable
  have hb : b = false := by
    -- only a quoted identifier carries a mark
    rw [Bool.eq_false_iff]
    intro hb
    obtain ⟨v, rfl | rfl⟩ := hsim.marked hb
    · cases hname
    · exact hm
  have hinert : ∀ c ∈ f.table, Inert m c := by
    intro c hc
    apply inert_of_identCont hm (.inl (identCont_of_isName htable hc))
    rintro hin rfl
    exact htag hin hc
  have hquote : Inert m' '"' := (inert_kind hsim.same '"').mp (inert_quote hm hname)
  have hqualified : ∀ c ∈ f.qualified pgSchema, Inert m' c := by
    have hschema' := inert_schema hschema hdollar hm hsim
    unfold Found.qualified
    intro c hc
    simp only [List.mem_append] at hc
    rcases hc with ((hc | hc) | hc) | hc
    · exact hschema' c (List.mem_append_left _ hc)
    · rcases List.mem_cons.mp hc with rfl | hc
      · exact hschema' '.' (by simp)
      · rw [List.mem_singleton.mp hc]
        exact hquote
    · exact (inert_kind hsim.same c).mp (hinert c hc)
    · rw [List.mem_singleton.mp hc]
      exact hquote
  have hfirst : ∀ x ∈ markFirst f.text, Inert m x.1 := by
    intro x hx
    apply hinert x.1
    rw [← htext, ← markFirst_fst f.text]
    exact List.mem_map_of_mem hx
  obtain ⟨hkind, -, hmarked⟩ := run_inert hfirst
  obtain ⟨hkind', hlex⟩ := lexFrom_inert hqualified
  rw [markFirst_fst] at hkind hmarked
  rw [markFirst_append hne, List.append_assoc, hmarked, List.append_assoc, hlex]
  refine expands_segment ⟨?_, fun h => ?_⟩ hcontinues ?_
  · rw [hkind, hkind', hsim.same]
  · rw [hb] at h
    cases h
  · rw [modeAfter_append]

end Enclosed

theorem expands_hit_plain {b : Bool} {m' : Mode} (hschema : isName pgSchema = true)
    (hsim : Sim b .plain m')
    (hbare : f.quoted = false → isName f.table = true ∧
      ∀ c ∈ r.head?, wordCont f.table c = false ∧ c ≠ '"')
    (hX : ∀ x ∈ X.head?, x.1 = ' ') (hY : ∀ c ∈ Y.head?, c = ' ')
    (hcontinues : Continues (modeAfter .plain (f.text ++ r)) X Y) :
    Expands (lexemesMarked (lexMarked b .plain (markFirst (f.text ++ r) ++ X)))
      (owed b ++ lexemes (lexFrom m' (f.qualified pgSchema ++ r ++ Y))) := by
  have hb : b = false := by
    rw [Bool.eq_false_iff]
    intro hb
    obtain ⟨v, h | h⟩ := hsim.marked hb <;> cases h
  have hm' : m' = .plain := by
    have hkind := hsim.same
    cases m' with
    | plain => rfl
    | _ => cases hkind
  rw [hb, hm']
  cases hquoted : f.quoted with
  | true => exact expands_hit_quoted hschema hquoted hcontinues
  | false =>
    obtain ⟨htable, hends⟩ := hbare hquoted
    exact expands_hit_bare hschema htable hquoted hX hY hends hcontinues

theorem startGap_of_isName {w : List Char} (h : isName w = true) : ∃ c v, w = c :: v ∧
    ∀ newline, startGap newline c = start c := by
  obtain ⟨c, v, rfl, hc, -, -⟩ := isName_iff.mp h
  have hne (d : Char) (hd : identStart d = false) : c ≠ d := ne_of_pred hc hd
  have hspace : isSpace c = false := by
    rw [Bool.eq_false_iff]
    intro hspace
    rw [(isSpace_bound hspace).1] at hc
    cases hc
  exact ⟨c, v, rfl, startGap_of_ne hspace (hne _ (by decide)) (hne _ (by decide))⟩

theorem expands_hit {m m' : Mode} {b : Bool} (hschema : isName pgSchema = true)
    (hdollar : '$' ∉ pgSchema) (hmode : m = .plain ∨ (∃ newline, m = .gap newline) ∨ Enclosed m)
    (hsim : Sim b m m')
    (hbare : f.quoted = false → isName f.table = true ∧ inName m = false ∧
      (inDollarText m = true → '$' ∉ f.table) ∧ ∀ c ∈ r.head?, wordCont f.table c = false ∧ c ≠ '"')
    (hX : ∀ x ∈ X.head?, x.1 = ' ') (hY : ∀ c ∈ Y.head?, c = ' ')
    (hcontinues : Continues (modeAfter m (f.text ++ r)) X Y) :
    Expands (lexemesMarked (lexMarked b m (markFirst (f.text ++ r) ++ X)))
      (owed b ++ lexemes (lexFrom m' (f.qualified pgSchema ++ r ++ Y))) := by
  have hends : f.quoted = false → isName f.table = true ∧
      ∀ c ∈ r.head?, wordCont f.table c = false ∧ c ≠ '"' := by
    intro hquoted
    obtain ⟨htable, -, -, hends⟩ := hbare hquoted
    exact ⟨htable, hends⟩
  rcases hmode with rfl | ⟨newline, rfl⟩ | henclosed
  · exact expands_hit_plain hschema hsim hends hX hY hcontinues
  · -- behind an escape string a name is read as anywhere else
    have hm' : m' = .gap newline := by
      have hkind := hsim.same
      cases m' with
      | gap newline' => exact hkind.symm
      | _ => cases hkind
    have hplain : Sim b .plain .plain := by
      refine ⟨rfl, fun hb => ?_⟩
      obtain ⟨v, h | h⟩ := hsim.marked hb <;> cases h
    obtain ⟨c, t, htext, hgap⟩ : ∃ c t, f.text = c :: t ∧ startGap newline c = start c := by
      cases hquoted : f.quoted with
      | true => exact ⟨'"', f.table ++ ['"'], Found.text_quoted hquoted, rfl⟩
      | false =>
        obtain ⟨c, t, htable, hgap⟩ := startGap_of_isName (hbare hquoted).1
        exact ⟨c, t, (Found.text_bare hquoted).trans htable, hgap newline⟩
    obtain ⟨d, u, hpg, hgap'⟩ := startGap_of_isName hschema
    have hcontinues' : Continues (modeAfter .plain (f.text ++ r)) X Y := by
      rw [htext, List.cons_append, modeAfter, step_gap hgap] at hcontinues
      rw [htext, List.cons_append, modeAfter]
      exact hcontinues
    have hread := expands_hit_plain hschema hplain hends hX hY hcontinues'
    rw [hm']
    rw [htext, List.cons_append, markFirst, List.cons_append] at hread ⊢
    rw [lexMarked_gap hgap]
    unfold Found.qualified at hread ⊢
    rw [hpg] at hread ⊢
    simp only [List.cons_append] at hread ⊢
    rw [lexFrom_gap (hgap' newline)]
    exact hread
  · cases hquoted : f.quoted with
    | true => exact expands_hit_enclosed_quoted hschema hdollar henclosed hsim hquoted hcontinues
    | false =>
      obtain ⟨htable, houtside, htag, -⟩ := hbare hquoted
      exact expands_hit_enclosed_bare hschema hdollar henclosed hsim hquoted htable houtside htag
        hcontinues

end Hit

theorem head_tail {gs : List (List Char)} : ∀ c ∈ (tail ' ' gs).head?, c = ' ' := by
  intro c hc
  cases gs with
  | nil => cases hc
  | cons q gs => exact (Option.some.inj hc).symm

theorem expands_tail {sql : List Char} (hschema : isName pgSchema = true) (hdollar : '$' ∉ pgSchema)
    (hE : ∀ kw f, E kw = some f → ' ' ∉ f.text) (hregular : Regular E sql) {a p : List Char}
    {gs : List (List Char)} (hsql : sql = a ++ join ' ' p gs) (ha : AfterSpace a)
    (hgs : ∀ q ∈ gs, ' ' ∉ q) :
    Continues (modeAfter .plain (a ++ p)) (markReached E (a ++ p) (tail ' ' gs))
      (tail ' ' (qualifySegments pgSchema E p gs)) := by
  induction gs generalizing a p with
  | nil => exact fun b m₁ m₁' _ hsim => expands_end hsim
  | cons q gs ih =>
    intro b m₁ m₁' hspace hsim
    have hnext : sql = (a ++ p ++ [' ']) ++ join ' ' q gs := by
      rw [hsql]
      simp [join, tail]
    have hq := hgs q List.mem_cons_self
    have hrest := ih hnext (afterSpace_append (a ++ p)) fun x hx => hgs x (List.mem_cons_of_mem _ hx)
    have hmark : markReached E (a ++ p) (tail ' ' (q :: gs)) =
        [' '].map (fun c => (c, false)) ++ markReached E (a ++ p ++ [' ']) (join ' ' q gs) := by
      have hnone : reachedAt E (a ++ p) (' ' :: join ' ' q gs) = none :=
        reachedAt_space hE hregular (by rw [hnext]; simp)
      rw [tail_cons, markReached, hnone]
      rfl
    have hmode : modeAfter .plain (a ++ p ++ [' ']) = (step m₁ ' ').2 := by
      rw [modeAfter_append, hspace]
      rfl
    have hplace : reachedAt E (a ++ p ++ [' ']) (join ' ' q gs) = hitOf E p q :=
      reachedAt_segment hE ha
    rw [hmark, qualifySegments, tail_cons]
    refine expands_run (u := [' ']) (Y := join ' ' (put pgSchema E p q) _) hsim fun b' m₂' hsim' => ?_
    have hm : modeAfter m₁ [' '] = modeAfter .plain (a ++ p ++ [' ']) := hmode.symm
    rw [hm] at hsim' ⊢
    -- the segment is copied, or the name it begins with gets the schema
    cases hhit : hitOf E p q with
    | none =>
      rw [hhit] at hplace
      rw [put_of_none hhit, join, markReached_plain hq hplace, join]
      apply expands_segment hsim' hrest
      rw [← modeAfter_append]
    | some f =>
      rw [hhit] at hplace
      obtain ⟨-, -, -, -, r, hr⟩ := hitOf_iff.mp hhit
      have hbare : f.quoted = false → PlainPlace (a ++ p ++ [' ']) (join ' ' q gs) f.table :=
        hregular.place hnext hplace
      have hne : q ≠ [] := by
        rintro rfl
        obtain ⟨htext, -⟩ := List.append_eq_nil_iff.mp hr
        exact Found.text_ne_nil (fun hquoted => (hbare hquoted).name) htext
      have hput : put pgSchema E p q = f.qualified pgSchema ++ r := by
        rw [put_of_some hhit, rest_of_some hhit, ← hr, List.drop_left]
      have hcontinues : Continues (modeAfter (modeAfter .plain (a ++ p ++ [' '])) (f.text ++ r))
          (markReached E (a ++ p ++ [' '] ++ q) (tail ' ' gs))
          (tail ' ' (qualifySegments pgSchema E q gs)) := by
        rw [← modeAfter_append, hr]
        exact hrest
      rw [hput, join, markReached_hit hq hne hplace, join, ← hr]
      rw [← hr] at hcontinues hbare
      have hlast : modeAfter .plain (a ++ p ++ [' ']) = (step (modeAfter .plain (a ++ p)) ' ').2 := by
        rw [modeAfter_append]
        rfl
      have hmode' := mode_space (tracks (a ++ p)).quotes (c := ' ') (by decide)
      rw [← hlast] at hmode'
      refine expands_hit hschema hdollar hmode' hsim' (fun hquoted => ?_) ?_ head_tail hcontinues
      · have hplace' := hbare hquoted
        refine ⟨hplace'.name, hplace'.outside, hplace'.dollar, fun c hc => ?_⟩
        apply hplace'.ends
        rw [Found.text_bare hquoted, join_append, List.drop_left]
        cases r with
        | nil => cases hc
        | cons d r => exact hc
      · intro x hx
        cases gs with
        | nil => cases hx
        | cons y gs => rw [← Option.some.inj hx]

/-- The rewritten query, read token by token, is the query with a schema at each marked name. -/
theorem expands_qualify {sql p : List Char} {gs : List (List Char)} (hschema : isName pgSchema = true)
    (hdollar : '$' ∉ pgSchema) (hE : ∀ kw f, E kw = some f → ' ' ∉ f.text) (hregular : Regular E sql)
    (hsql : sql = join ' ' p gs) (hp : ' ' ∉ p) (hgs : ∀ q ∈ gs, ' ' ∉ q) :
    Expands (lexemesMarked (lexMarked false .plain (markReached E [] sql)))
      (lexemes (lex (join ' ' p (qualifySegments pgSchema E p gs)))) := by
  have htail := expands_tail hschema hdollar hE hregular (a := []) hsql (.inl rfl) hgs
  rw [hsql, join, markReached_plain hp (reachedAt_inside (by simp) _), join]
  exact expands_segment (b := false) ⟨rfl, by simp⟩ htail rfl

end Reading

section LimitStep

variable {tables : CaseTables}

/-- What is clamped reads, where it stands, like the number that takes its place. -/
structure PlainNumber (sql : List Char) (p : Clamped) : Prop where
  same : ∃ number, sql = p.upTo ++ p.gap ++ number ++ p.behind ∧
    lexemes (lexFrom (modeAfter .plain (p.upTo ++ p.gap)) (number ++ p.behind)) =
      lexemes (lexFrom (modeAfter .plain (p.upTo ++ p.gap)) ("1000".toList ++ p.behind))

theorem identCont_of_isDigit {c : Char} (h : c.isDigit = true) : identCont c = true := by
  unfold identCont
  rw [h]
  simp

theorem lexemes_digits {m : Mode} (hm : m = .plain ∨ (∃ newline, m = .gap newline) ∨ Enclosed m)
    {ds ds' s : List Char} (hne : ds ≠ []) (hne' : ds' ≠ []) (hds : ∀ d ∈ ds, d.isDigit = true)
    (hds' : ∀ d ∈ ds', d.isDigit = true) (hs : ∀ c ∈ s.head?, isSpace c = true) :
    lexemes (lexFrom m (ds ++ s)) = lexemes (lexFrom m (ds' ++ s)) := by
  have hplain : lexemes (lex (ds ++ s)) = lexemes (lex (ds' ++ s)) := by
    rw [lex_digits hne hds hs, lex_digits hne' hds' hs]
    rfl
  rcases hm with rfl | ⟨newline, rfl⟩ | hm
  · exact hplain
  · have hgap : ∀ ds : List Char, ds ≠ [] → (∀ d ∈ ds, d.isDigit = true) →
        lexFrom (.gap newline) (ds ++ s) = lex (ds ++ s) := by
      intro ds hne hds
      obtain ⟨d, ds, rfl⟩ := List.exists_cons_of_ne_nil hne
      have hd := hds d List.mem_cons_self
      have hother : ∀ c : Char, c.isDigit = false → d ≠ c := by
        rintro c hc rfl
        rw [hd] at hc
        cases hc
      have hspace : isSpace d = false := by
        rw [Bool.eq_false_iff]
        intro hspace
        rw [(isSpace_bound hspace).2] at hd
        cases hd
      exact lexFrom_gap (startGap_of_ne hspace (hother _ (by decide)) (hother _ (by decide)) newline) _
    rw [hgap ds hne hds, hgap ds' hne' hds']
    exact hplain
  · have hinert : ∀ d : Char, d.isDigit = true → Inert m d := by
      intro d hd
      apply inert_of_identCont hm (.inl (identCont_of_isDigit hd))
      rintro - rfl
      cases hd
    obtain ⟨hkind, hlex⟩ := lexFrom_inert fun d hd => hinert d (hds d hd)
    obtain ⟨hkind', hlex'⟩ := lexFrom_inert fun d hd => hinert d (hds' d hd)
    rw [hlex, hlex']
    exact lexemes_kind (hkind.trans hkind'.symm) s

theorem plainNumber_of_digits {sql ds : List Char} {p : Clamped} (hne : ds ≠ [])
    (hds : ∀ d ∈ ds, d.isDigit = true) (hsql : sql = p.upTo ++ p.gap ++ ds ++ p.behind)
    {front : List Char} {c : Char} (hgap : p.gap = front ++ [c]) (hc : isSpace c = true)
    (hapart : ∀ c ∈ p.behind.head?, isSpace c = true) : PlainNumber sql p := by
  refine ⟨ds, hsql, ?_⟩
  have hmode := mode_space (tracks (p.upTo ++ front)).quotes hc
  have hlast : modeAfter .plain (p.upTo ++ p.gap) = (step (modeAfter .plain (p.upTo ++ front)) c).2 := by
    rw [hgap, ← List.append_assoc, modeAfter_append]
    rfl
  rw [hlast]
  exact lexemes_digits hmode hne (by decide) hds (List.all_eq_true.mp (by decide)) hapart

theorem qualified_enforceLimit {sql limited : List Char}
    (h : enforceLimit tables sql = some limited)
    (hnumber : ∀ p, clampParts tables sql = some p → PlainNumber sql p) :
    Qualified limited ↔ Qualified sql := by
  rcases enforceLimit_cases h with ⟨-, -, rfl⟩ | ⟨parts, -, -, rfl⟩ | ⟨parts, p, -, hp, rfl⟩
  · have hlexemes : lexemes (lex (sql ++ " LIMIT 1000".toList)) = lexemes (lex sql) ∨
        lexemes (lex (sql ++ " LIMIT 1000".toList)) =
          lexemes (lex sql) ++ [.word .clause false, .other] := by
      unfold lex
      rw [lexFrom_append, lexFrom_limit (tracks sql).quotes, lexFrom_eq]
      by_cases hclosed : (modeAfter .plain sql).closed = true
      · right
        rw [if_pos hclosed, ← List.append_assoc, lexemes_append]
        rfl
      · left
        rw [if_neg hclosed, flush_of_not_closed hclosed]
    show accepts .start (lexemes _) = true ↔ accepts .start (lexemes _) = true
    rcases hlexemes with hlexemes | hlexemes
    · rw [hlexemes]
    · rw [hlexemes, accepts_clause]
  · exact Iff.rfl
  · obtain ⟨number, hsql, hone⟩ := hnumber p hp
    have hsame : lexemes (lex p.text) = lexemes (lex sql) := by
      rw [hsql]
      unfold lex Clamped.text
      rw [List.append_assoc, List.append_assoc (p.upTo ++ p.gap),
        lexFrom_append _ (p.upTo ++ p.gap), lexFrom_append _ (p.upTo ++ p.gap), lexemes_append,
        lexemes_append, hone]
    show accepts .start (lexemes _) = true ↔ accepts .start (lexemes _) = true
    rw [hsame]

/-- The name that is replaced behind a spelling of a keyword in a query. -/
def foundNames (tables : CaseTables) (pgSchema sql : List Char) : String → Option Found :=
  firstFound pgSchema sql (extractTableNames tables sql)

theorem space_of_foundNames {pgSchema sql : List Char} (kw : String) (f : Found)
    (h : foundNames tables pgSchema sql kw = some f) : ' ' ∉ f.text := by
  unfold foundNames firstFound at h
  split_ifs at h
  obtain ⟨n, hn, hfound⟩ := List.exists_of_findSome?_eq_some h
  obtain ⟨rfl, -⟩ := foundIn_text hfound
  have htable : ' ' ∉ f.table := by
    intro hc
    have := not_whitespace_of_mem_extractTableNames hn hc
    revert this
    decide
  exact Found.notMem_text htable (by decide)

/-- The rewriting leaves no unqualified name exactly if it reaches each of them. -/
theorem qualified_qualifyTables_iff {pgSchema sql : List Char} (hschema : isName pgSchema = true)
    (hdollar : '$' ∉ pgSchema) (hregular : Regular (foundNames tables pgSchema sql) sql) :
    Qualified (qualifyTables tables pgSchema sql) ↔
      AllReached (foundNames tables pgSchema sql) sql := by
  obtain ⟨p, gs, hsql, hp, hgs⟩ := exists_join ' ' sql
  have hnames : ∀ n ∈ extractTableNames tables sql, ' ' ∉ n := by
    intro n hn hc
    have := not_whitespace_of_mem_extractTableNames hn hc
    revert this
    decide
  have hover : NoOverlap (foundNames tables pgSchema sql) p gs :=
    noOverlap_of_regular space_of_foundNames hregular (a := []) hsql (.inl rfl)
  have hrewritten : qualifyTables tables pgSchema sql =
      join ' ' p (qualifySegments pgSchema (foundNames tables pgSchema sql) p gs) := by
    have hfold := foldl_addSchemaPrefix (notMem_of_isName hschema (by decide)) _ hnames hp hgs
      (by rw [← hsql]; exact hover)
    rw [← hsql] at hfold
    exact hfold
  have hexpands := expands_qualify hschema hdollar space_of_foundNames hregular hsql hp hgs
  rw [hrewritten]
  show accepts .start (lexemes _) = true ↔ accepts .start (lexemesMarked _) = true
  rw [accepts_of_expands hexpands]

end LimitStep

end Sql

end ForgeIndex
