import ForgeIndex.Api.Sql.Keywords
import ForgeIndex.Lib.Segments

/-!
# Where the schema is added

`add_schema_prefix` runs for each table name and each spelling of `FROM` and `JOIN`.  For one
spelling it replaces at most one name, since the query then contains the spelling with the schema.
The runs together are one pass over the query that knows the name of each spelling.
-/

namespace ForgeIndex

open Text

namespace Sql

/-- A table name as it is written behind a keyword. -/
structure Found where
  table : List Char
  quoted : Bool
  deriving DecidableEq, Repr

def Found.text (f : Found) : List Char := if f.quoted then '"' :: f.table ++ ['"'] else f.table

theorem Found.text_bare {f : Found} (h : f.quoted = false) : f.text = f.table := by
  unfold Found.text
  rw [h, if_neg Bool.false_ne_true]

theorem Found.text_quoted {f : Found} (h : f.quoted = true) :
    f.text = '"' :: f.table ++ ['"'] := by
  unfold Found.text
  rw [h, if_pos rfl]

theorem Found.notMem_text {f : Found} {c : Char} (h : c ∉ f.table) (hc : c ≠ '"') : c ∉ f.text := by
  unfold Found.text
  split_ifs
  · simp [h, hc]
  · exact h

/-- The name with the schema. -/
def Found.qualified (pgSchema : List Char) (f : Found) : List Char :=
  pgSchema ++ ".\"".toList ++ f.table ++ "\"".toList

/-- A keyword, a space, and a text. -/
def behind (kw : String) (x : List Char) : List Char := kw.toList ++ ' ' :: x

/-- How a table name is written behind a keyword somewhere in the query. -/
def foundIn (sql : List Char) (kw : String) (table : List Char) : Option Found :=
  if contains (behind kw table) sql then some ⟨table, false⟩
  else if contains (behind kw ('"' :: table ++ ['"'])) sql then some ⟨table, true⟩
  else none

/-- The name that is replaced behind a spelling of a keyword: the first one that occurs there, and
none if the spelling occurs with the schema. -/
def firstFound (pgSchema sql : List Char) (names : List (List Char)) (kw : String) :
    Option Found :=
  if contains (behind kw (pgSchema ++ ['.'])) sql then none else names.findSome? (foundIn sql kw)

/-- The name that is replaced at the start of a segment, behind another segment. -/
def hitOf (E : String → Option Found) (p q : List Char) : Option Found :=
  prefixKeywords.findSome? fun kw =>
    if kw.toList <:+ p then (E kw).filter fun f => f.text <+: q else none

section Segments

variable (pgSchema : List Char) (E : String → Option Found)

/-- What stays of a segment. -/
def rest (p q : List Char) : List Char :=
  match hitOf E p q with
  | some f => q.drop f.text.length
  | none => q

/-- A segment with the schema, if its name is replaced. -/
def put (p q : List Char) : List Char :=
  match hitOf E p q with
  | some f => f.qualified pgSchema ++ rest E p q
  | none => q

/-- One pass over the segments. -/
def qualifySegments : List Char → List (List Char) → List (List Char)
  | _, [] => []
  | p, q :: gs => put pgSchema E p q :: qualifySegments q gs

/-- A keyword at the end of a segment is no part of the name that is replaced at its start. -/
def NoOverlap : List Char → List (List Char) → Prop
  | _, [] => True
  | p, q :: gs =>
    (gs ≠ [] → ∀ kw ∈ prefixKeywords, kw.toList <:+ q → kw.toList <:+ rest E p q) ∧ NoOverlap q gs

end Segments

theorem keyword_ne_nil {kw : String} (h : kw ∈ prefixKeywords) : kw.toList ≠ [] := by
  intro hnil
  have := (keywords_letters kw h).1
  rw [hnil] at this
  cases this

theorem keyword_notMem {kw : String} (h : kw ∈ prefixKeywords) {c : Char}
    (hc : c.isAlpha = false) : c ∉ kw.toList := by
  intro hmem
  rw [(keywords_letters kw h).2 c hmem] at hc
  cases hc

theorem keyword_unique {kw kw' : String} {p : List Char} (h : kw ∈ prefixKeywords)
    (h' : kw' ∈ prefixKeywords) (hp : kw.toList <:+ p) (hp' : kw'.toList <:+ p) : kw = kw' := by
  apply String.toList_inj.mp
  have hlen : kw.toList.length = kw'.toList.length := by
    rw [(keywords_letters kw h).1, (keywords_letters kw' h').1]
  exact (List.suffix_of_suffix_length_le hp hp' hlen.le).eq_of_length hlen

variable {E : String → Option Found}

theorem hitOf_iff {p q : List Char} {f : Found} : hitOf E p q = some f ↔
    ∃ kw ∈ prefixKeywords, kw.toList <:+ p ∧ E kw = some f ∧ f.text <+: q := by
  have hfound : ∀ f, hitOf E p q = some f →
      ∃ kw ∈ prefixKeywords, kw.toList <:+ p ∧ E kw = some f ∧ f.text <+: q := by
    intro f h
    obtain ⟨kw, hkw, h⟩ := List.exists_of_findSome?_eq_some h
    split_ifs at h with hp
    rw [Option.filter_eq_some_iff] at h
    exact ⟨kw, hkw, hp, h.1, by simpa using h.2⟩
  refine ⟨hfound f, ?_⟩
  rintro ⟨kw, hkw, hp, hE, hq⟩
  have hsome : (hitOf E p q).isSome := by
    unfold hitOf
    rw [List.findSome?_isSome_iff]
    refine ⟨kw, hkw, ?_⟩
    rw [if_pos hp, hE, Option.filter_some, if_pos (by simpa using hq)]
    rfl
  obtain ⟨f', hf'⟩ := Option.isSome_iff_exists.mp hsome
  obtain ⟨kw', hkw', hp', hE', -⟩ := hfound f' hf'
  obtain rfl := keyword_unique hkw hkw' hp hp'
  rw [hf', ← hE, hE']

theorem hitOf_of_suffix {kw : String} (h : kw ∈ prefixKeywords) {p : List Char}
    (hp : kw.toList <:+ p) (q : List Char) :
    hitOf E p q = (E kw).filter fun f => f.text <+: q := by
  apply Option.ext
  intro f
  rw [hitOf_iff, Option.filter_eq_some_iff]
  constructor
  · rintro ⟨kw', hkw', hp', hE, hq⟩
    obtain rfl := keyword_unique h hkw' hp hp'
    exact ⟨hE, by simpa using hq⟩
  · rintro ⟨hE, hq⟩
    exact ⟨kw, h, hp, hE, by simpa using hq⟩

theorem put_of_none {p q : List Char} (h : hitOf E p q = none) (pgSchema : List Char) :
    put pgSchema E p q = q := by
  unfold put
  rw [h]

theorem put_of_some {p q : List Char} {f : Found} (h : hitOf E p q = some f)
    (pgSchema : List Char) : put pgSchema E p q = f.qualified pgSchema ++ rest E p q := by
  unfold put
  rw [h]

theorem rest_of_none {p q : List Char} (h : hitOf E p q = none) : rest E p q = q := by
  unfold rest
  rw [h]

theorem rest_of_some {p q : List Char} {f : Found} (h : hitOf E p q = some f) :
    rest E p q = q.drop f.text.length := by
  unfold rest
  rw [h]

theorem rest_suffix (p q : List Char) : rest E p q <:+ q := by
  unfold rest
  split
  · exact List.drop_suffix _ _
  · exact List.suffix_refl _

theorem suffix_append_of_notMem {c : Char} {k a b : List Char} (h : c ∉ k)
    (hk : k <:+ a ++ c :: b) : k <:+ b := by
  rcases List.suffix_or_suffix_of_suffix hk (List.suffix_append a (c :: b)) with hs | hs
  · rcases List.suffix_cons_iff.mp hs with rfl | hs
    · exact absurd List.mem_cons_self h
    · exact hs
  · exact absurd (hs.subset List.mem_cons_self) h

/-- The keyword at the end of a segment stands behind the name that is replaced. -/
theorem suffix_put_iff {kw : String} (h : kw ∈ prefixKeywords) (pgSchema p q : List Char) :
    kw.toList <:+ put pgSchema E p q ↔ kw.toList <:+ rest E p q := by
  cases hhit : hitOf E p q with
  | none =>
    rw [put_of_none hhit, rest_of_none hhit]
  | some f =>
    rw [put_of_some hhit]
    constructor
    · intro hs
      unfold Found.qualified at hs
      rw [show pgSchema ++ ".\"".toList ++ f.table ++ "\"".toList ++ rest E p q =
        (pgSchema ++ ".\"".toList ++ f.table) ++ '"' :: rest E p q by simp] at hs
      exact suffix_append_of_notMem (keyword_notMem h (by decide)) hs
    · exact fun hs => hs.trans (List.suffix_append _ _)

section Runs

variable {pgSchema : List Char} {kw : String} {p p' : List Char} {gs : List (List Char)}

/-- The segment that has been rewritten ends with the keyword where the segment of the query does. -/
theorem suffix_put (h : kw ∈ prefixKeywords) {q : List Char}
    (hq : kw.toList <:+ q → kw.toList <:+ rest E p q) (pgSchema : List Char) :
    kw.toList <:+ put pgSchema E p q ↔ kw.toList <:+ q := by
  rw [suffix_put_iff h]
  exact ⟨fun hs => hs.trans (rest_suffix p q), hq⟩

/-- Behind a keyword whose names have not been rewritten the text is that of the query. -/
theorem anyPair_untouched (h : kw ∈ prefixKeywords) (hE : E kw = none) (x : List Char)
    (hp : kw.toList <:+ p' ↔ kw.toList <:+ p) (hgs : NoOverlap E p gs) :
    AnyPair (fun p q => kw.toList <:+ p ∧ x <+: q) p' (qualifySegments pgSchema E p gs) ↔
      AnyPair (fun p q => kw.toList <:+ p ∧ x <+: q) p gs := by
  induction gs generalizing p p' with
  | nil => exact Iff.rfl
  | cons q gs ih =>
    rw [qualifySegments, AnyPair, AnyPair, hp]
    apply or_congr
    · apply and_congr_right
      intro hs
      have hhit : hitOf E p q = none := by
        rw [hitOf_of_suffix h hs, hE]
        rfl
      rw [put_of_none hhit]
    · cases gs with
      | nil => exact Iff.rfl
      | cons r gs =>
        exact ih (suffix_put h (hgs.1 (List.cons_ne_nil r gs) kw h) pgSchema) hgs.2

theorem anyPair_schema (h : kw ∈ prefixKeywords) {f : Found} (hE : E kw = some f)
    (hp : kw.toList <:+ p' ↔ kw.toList <:+ p) (hgs : NoOverlap E p gs)
    (hany : AnyPair (fun p q => kw.toList <:+ p ∧ f.text <+: q) p gs) :
    AnyPair (fun p q => kw.toList <:+ p ∧ pgSchema ++ ['.'] <+: q) p'
      (qualifySegments pgSchema E p gs) := by
  induction gs generalizing p p' with
  | nil => exact hany
  | cons q gs ih =>
    rw [qualifySegments, AnyPair]
    rcases hany with ⟨hs, htext⟩ | hany
    · left
      have hhit : hitOf E p q = some f := hitOf_iff.mpr ⟨kw, h, hs, hE, htext⟩
      refine ⟨hp.mpr hs, ?_⟩
      rw [put_of_some hhit]
      unfold Found.qualified
      simp only [List.append_assoc]
      exact (List.prefix_append_right_inj _).mpr ⟨_, rfl⟩
    · right
      cases gs with
      | nil => exact absurd hany id
      | cons r gs =>
        exact ih (suffix_put h (hgs.1 (List.cons_ne_nil r gs) kw h) pgSchema) hgs.2 hany

theorem replaceSegments_qualify (h : kw ∈ prefixKeywords) {f : Found} (hE : E kw = none)
    (hp : kw.toList <:+ p' ↔ kw.toList <:+ p)
    (hgs : NoOverlap (Function.update E kw (some f)) p gs) :
    replaceSegments kw.toList f.text (f.qualified pgSchema) p' (qualifySegments pgSchema E p gs) =
      qualifySegments pgSchema (Function.update E kw (some f)) p gs := by
  induction gs generalizing p p' with
  | nil => rfl
  | cons q gs ih =>
    rw [qualifySegments, qualifySegments, replaceSegments]
    by_cases hs : kw.toList <:+ p
    · have hhit : hitOf E p q = none := by
        rw [hitOf_of_suffix h hs, hE]
        rfl
      have hnew : hitOf (Function.update E kw (some f)) p q =
          (some f).filter fun f => f.text <+: q := by
        rw [hitOf_of_suffix h hs, Function.update_self]
      rw [put_of_none hhit]
      by_cases htext : f.text <+: q
      · rw [if_pos ⟨hp.mpr hs, htext⟩]
        rw [Option.filter_some, if_pos (by simpa using htext)] at hnew
        rw [put_of_some hnew, rest_of_some hnew]
        congr 1
        cases gs with
        | nil => rfl
        | cons r gs =>
          apply ih _ hgs.2
          have hrest := hgs.1 (List.cons_ne_nil r gs) kw h
          rw [rest_of_some hnew] at hrest
          exact ⟨fun hd => hd.trans (List.drop_suffix _ _), hrest⟩
      · rw [if_neg fun hc => htext hc.2]
        rw [Option.filter_some, if_neg (by simpa using htext)] at hnew
        rw [put_of_none hnew, ih Iff.rfl hgs.2]
    · have hsame : hitOf (Function.update E kw (some f)) p q = hitOf E p q := by
        apply Option.ext
        intro f'
        rw [hitOf_iff, hitOf_iff]
        apply exists_congr
        intro k
        apply and_congr_right
        intro _
        apply and_congr_right
        intro hk
        have hne : k ≠ kw := fun heq => hs (heq ▸ hk)
        rw [Function.update_of_ne hne]
      have hput : put pgSchema (Function.update E kw (some f)) p q = put pgSchema E p q := by
        unfold put rest
        rw [hsame]
      have hrest : rest (Function.update E kw (some f)) p q = rest E p q := by
        unfold rest
        rw [hsame]
      rw [if_neg fun hc => hs (hp.mp hc.1), hput]
      congr 1
      cases gs with
      | nil => rfl
      | cons r gs =>
        apply ih _ hgs.2
        have hover := hgs.1 (List.cons_ne_nil r gs) kw h
        rw [hrest] at hover
        exact suffix_put h hover pgSchema

theorem contains_behind_iff (h : kw ∈ prefixKeywords) {x : List Char} (hx : ' ' ∉ x)
    (hp : ' ' ∉ p) (hgs : ∀ q ∈ gs, ' ' ∉ q) :
    contains (behind kw x) (join ' ' p gs) = true ↔
      AnyPair (fun p q => kw.toList <:+ p ∧ x <+: q) p gs := by
  rw [contains_iff]
  exact pattern_infix_iff (keyword_notMem h (by decide)) hx hp hgs (keyword_ne_nil h)

theorem table_subset_text (f : Found) : f.table ⊆ f.text := by
  unfold Found.text
  split_ifs
  · exact fun c hc => List.mem_append_left _ (List.mem_cons_of_mem _ hc)
  · exact List.Subset.refl _

theorem space_put {q : List Char} (hschema : ' ' ∉ pgSchema) (hq : ' ' ∉ q) :
    ' ' ∉ put pgSchema E p q := by
  cases hhit : hitOf E p q with
  | none =>
    rw [put_of_none hhit]
    exact hq
  | some f =>
    obtain ⟨-, -, -, -, htext⟩ := hitOf_iff.mp hhit
    have htable : ' ' ∉ f.table := fun h => hq (htext.subset (table_subset_text f h))
    have hrest : ' ' ∉ rest E p q := fun h => hq ((rest_suffix p q).subset h)
    rw [put_of_some hhit]
    unfold Found.qualified
    simp [hschema, htable, hrest]

theorem space_qualifySegments (hschema : ' ' ∉ pgSchema) (hgs : ∀ q ∈ gs, ' ' ∉ q) :
    ∀ q ∈ qualifySegments pgSchema E p gs, ' ' ∉ q := by
  induction gs generalizing p with
  | nil => exact hgs
  | cons q gs ih =>
    rw [qualifySegments, List.forall_mem_cons]
    exact ⟨space_put hschema (hgs q List.mem_cons_self),
      ih fun r hr => hgs r (List.mem_cons_of_mem _ hr)⟩

theorem noOverlap_mono {E' : String → Option Found}
    (hE : ∀ k f, E k = some f → E' k = some f) (h : NoOverlap E' p gs) : NoOverlap E p gs := by
  induction gs generalizing p with
  | nil => trivial
  | cons q gs ih =>
    refine ⟨fun hne k hk hs => ?_, ih h.2⟩
    cases hhit : hitOf E p q with
    | none =>
      rw [rest_of_none hhit]
      exact hs
    | some f =>
      obtain ⟨k', hk', hp, hf, htext⟩ := hitOf_iff.mp hhit
      have hnew : hitOf E' p q = some f := hitOf_iff.mpr ⟨k', hk', hp, hE k' f hf, htext⟩
      have := h.1 hne k hk hs
      rw [rest_of_some hnew] at this
      rw [rest_of_some hhit]
      exact this

theorem prefixAfter_idle {table s : List Char}
    (h : contains (behind kw (pgSchema ++ ['.'])) s = true) : prefixAfter table pgSchema s kw = s := by
  have halready : kw.toList ++ ' ' :: pgSchema ++ ['.'] = behind kw (pgSchema ++ ['.']) := by
    simp [behind]
  unfold prefixAfter
  simp only [halready, h, Bool.not_true, Bool.and_false, Bool.false_eq_true, if_false]

theorem prefixAfter_bare {table s : List Char}
    (hno : contains (behind kw (pgSchema ++ ['.'])) s = false)
    (hbare : contains (behind kw table) s = true)
    (hnew : contains (behind kw (pgSchema ++ ['.'])) (replaceAll (behind kw table)
      (behind kw (Found.qualified pgSchema ⟨table, false⟩)) s) = true) :
    prefixAfter table pgSchema s kw =
      replaceAll (behind kw table) (behind kw (Found.qualified pgSchema ⟨table, false⟩)) s := by
  have halready : kw.toList ++ ' ' :: pgSchema ++ ['.'] = behind kw (pgSchema ++ ['.']) := by
    simp [behind]
  have hpattern : kw.toList ++ ' ' :: table = behind kw table := rfl
  have hqualified : kw.toList ++ ' ' :: (pgSchema ++ ".\"".toList ++ table ++ "\"".toList) =
      behind kw (Found.qualified pgSchema ⟨table, false⟩) := rfl
  unfold prefixAfter
  simp only [halready, hpattern, hqualified, hno, hbare, hnew, Bool.not_true, Bool.not_false,
    Bool.and_false, Bool.and_true, Bool.false_eq_true, if_false, if_true]

theorem prefixAfter_quoted {table s : List Char}
    (hno : contains (behind kw (pgSchema ++ ['.'])) s = false)
    (hbare : contains (behind kw table) s = false) :
    prefixAfter table pgSchema s kw =
      if contains (behind kw ('"' :: table)) s then
        replaceAll (behind kw ('"' :: table ++ ['"']))
          (behind kw (Found.qualified pgSchema ⟨table, true⟩)) s
      else s := by
  have halready : kw.toList ++ ' ' :: pgSchema ++ ['.'] = behind kw (pgSchema ++ ['.']) := by
    simp [behind]
  have hpattern : kw.toList ++ ' ' :: table = behind kw table := rfl
  have hqualified : kw.toList ++ ' ' :: (pgSchema ++ ".\"".toList ++ table ++ "\"".toList) =
      behind kw (Found.qualified pgSchema ⟨table, true⟩) := rfl
  have hquoted : kw.toList ++ " \"".toList ++ table = behind kw ('"' :: table) := by simp [behind]
  have hclosed : behind kw ('"' :: table) ++ ['"'] = behind kw ('"' :: table ++ ['"']) := by
    simp [behind]
  unfold prefixAfter
  simp only [halready, hpattern, hqualified, hquoted, hclosed, hno, hbare, Bool.not_false,
    Bool.and_true, Bool.false_eq_true, if_false]

theorem foundIn_text {sql table : List Char} {f : Found} (h : foundIn sql kw table = some f) :
    f.table = table ∧ contains (behind kw f.text) sql = true := by
  unfold foundIn at h
  split_ifs at h with hbare hclosed
  · obtain rfl := Option.some.inj h
    exact ⟨rfl, hbare⟩
  · obtain rfl := Option.some.inj h
    exact ⟨rfl, hclosed⟩

theorem firstFound_append {sql : List Char} {names : List (List Char)} {table : List Char} :
    firstFound pgSchema sql (names ++ [table]) kw =
      if contains (behind kw (pgSchema ++ ['.'])) sql then none
      else (names.findSome? (foundIn sql kw)).or (foundIn sql kw table) := by
  unfold firstFound
  rw [List.findSome?_append, List.findSome?_singleton]

section Pending

variable (h : kw ∈ prefixKeywords) (hE : E kw = none)

include h hE

theorem contains_qualify (hp : ' ' ∉ p) (hsegments : ∀ q ∈ qualifySegments pgSchema E p gs, ' ' ∉ q)
    (hgs : ∀ q ∈ gs, ' ' ∉ q) (hover : NoOverlap E p gs) {x : List Char} (hx : ' ' ∉ x) :
    contains (behind kw x) (join ' ' p (qualifySegments pgSchema E p gs)) =
      contains (behind kw x) (join ' ' p gs) := by
  rw [Bool.eq_iff_iff, contains_behind_iff h hx hp hsegments, contains_behind_iff h hx hp hgs]
  exact anyPair_untouched h hE x Iff.rfl hover

theorem replaceAll_qualify {f : Found} (hp : ' ' ∉ p)
    (hsegments : ∀ q ∈ qualifySegments pgSchema E p gs, ' ' ∉ q) (hf : ' ' ∉ f.text)
    (hover : NoOverlap (Function.update E kw (some f)) p gs) :
    replaceAll (behind kw f.text) (behind kw (f.qualified pgSchema))
        (join ' ' p (qualifySegments pgSchema E p gs)) =
      join ' ' p (qualifySegments pgSchema (Function.update E kw (some f)) p gs) := by
  unfold behind
  rw [replaceAll_join (keyword_ne_nil h) (keyword_notMem h (by decide)) hf hp hsegments,
    replaceSegments_qualify h hE Iff.rfl hover]

omit h in
theorem noOverlap_of_update {found : Option Found}
    (hover : NoOverlap (Function.update E kw found) p gs) : NoOverlap E p gs := by
  refine noOverlap_mono (fun k f hk => ?_) hover
  have hne : k ≠ kw := by
    rintro rfl
    rw [hE] at hk
    cases hk
  rw [Function.update_of_ne hne]
  exact hk

end Pending

theorem prefixAfter_qualify (h : kw ∈ prefixKeywords) {table : List Char}
    {names : List (List Char)} (hschema : ' ' ∉ pgSchema) (htable : ' ' ∉ table)
    (hnames : ∀ n ∈ names, ' ' ∉ n) (hp : ' ' ∉ p) (hgs : ∀ q ∈ gs, ' ' ∉ q)
    (hE : E kw = firstFound pgSchema (join ' ' p gs) names kw) {E' : String → Option Found}
    (hE' : E' = Function.update E kw (firstFound pgSchema (join ' ' p gs) (names ++ [table]) kw))
    (hover : NoOverlap E' p gs) :
    prefixAfter table pgSchema (join ' ' p (qualifySegments pgSchema E p gs)) kw =
      join ' ' p (qualifySegments pgSchema E' p gs) := by
  have hsegments := space_qualifySegments (E := E) (p := p) hschema hgs
  have hdot : ' ' ∉ pgSchema ++ ['.'] := by simp [hschema]
  have hquote : ' ' ∉ '"' :: table := by simp [htable]
  have hclosing : ' ' ∉ '"' :: table ++ ['"'] := by simp [htable]
  rw [firstFound_append] at hE'
  unfold firstFound at hE
  by_cases halready : contains (behind kw (pgSchema ++ ['.'])) (join ' ' p gs) = true
  · rw [if_pos halready] at hE hE'
    rw [← hE, Function.update_eq_self] at hE'
    subst hE'
    apply prefixAfter_idle
    rw [contains_qualify h hE hp hsegments hgs hover hdot]
    exact halready
  rw [if_neg halready] at hE hE'
  cases hfirst : names.findSome? (foundIn (join ' ' p gs) kw) with
  | some f =>
    -- an earlier name has been replaced behind this spelling
    rw [hfirst] at hE hE'
    rw [Option.some_or, ← hE, Function.update_eq_self] at hE'
    subst hE'
    obtain ⟨n, hn, hfound⟩ := List.exists_of_findSome?_eq_some hfirst
    obtain ⟨hname, htext⟩ := foundIn_text hfound
    have hspace : ' ' ∉ f.text := by
      rw [← hname] at hn
      exact Found.notMem_text (hnames _ hn) (by decide)
    apply prefixAfter_idle
    rw [contains_behind_iff h hdot hp hsegments]
    rw [contains_behind_iff h hspace hp hgs] at htext
    exact anyPair_schema h hE Iff.rfl hover htext
  | none =>
    rw [hfirst] at hE hE'
    rw [Option.none_or] at hE'
    subst hE'
    have hle := noOverlap_of_update hE hover
    have hno : contains (behind kw (pgSchema ++ ['.']))
        (join ' ' p (qualifySegments pgSchema E p gs)) = false := by
      rw [contains_qualify h hE hp hsegments hgs hle hdot]
      simpa using halready
    by_cases hbare : contains (behind kw table) (join ' ' p gs) = true
    · have hfound : foundIn (join ' ' p gs) kw table = some ⟨table, false⟩ := by
        unfold foundIn
        rw [if_pos hbare]
      rw [hfound] at hover ⊢
      have hreplaced := replaceAll_qualify (f := ⟨table, false⟩) h hE hp hsegments htable hover
      have htext : Found.text ⟨table, false⟩ = table := rfl
      rw [htext] at hreplaced
      rw [prefixAfter_bare hno
        (by rw [contains_qualify h hE hp hsegments hgs hle htable]; exact hbare), hreplaced]
      rw [hreplaced, contains_behind_iff h hdot hp (space_qualifySegments hschema hgs)]
      apply anyPair_schema (f := ⟨table, false⟩) h _ Iff.rfl hover
      · exact (contains_behind_iff h htable hp hgs).mp hbare
      · rw [Function.update_self]
    · have hbare' : contains (behind kw table) (join ' ' p gs) = false := by simpa using hbare
      rw [prefixAfter_quoted hno
        (by rw [contains_qualify h hE hp hsegments hgs hle htable]; exact hbare')]
      by_cases hclosed : contains (behind kw ('"' :: table ++ ['"'])) (join ' ' p gs) = true
      · have hfound : foundIn (join ' ' p gs) kw table = some ⟨table, true⟩ := by
          unfold foundIn
          rw [if_neg hbare, if_pos hclosed]
        have hopen : contains (behind kw ('"' :: table)) (join ' ' p gs) = true := by
          rw [contains_behind_iff h hquote hp hgs]
          rw [contains_behind_iff h hclosing hp hgs] at hclosed
          exact hclosed.mono fun p q hpq => ⟨hpq.1, (List.prefix_append _ _).trans hpq.2⟩
        rw [hfound] at hover ⊢
        rw [contains_qualify h hE hp hsegments hgs hle hquote, if_pos hopen]
        exact replaceAll_qualify (f := ⟨table, true⟩) h hE hp hsegments hclosing hover
      · have hfound : foundIn (join ' ' p gs) kw table = none := by
          unfold foundIn
          rw [if_neg hbare, if_neg hclosed]
        have hnot : ¬behind kw ('"' :: table ++ ['"']) <:+:
            join ' ' p (qualifySegments pgSchema E p gs) := by
          rw [← contains_iff, contains_qualify h hE hp hsegments hgs hle hclosing]
          exact hclosed
        rw [hfound, ← hE, Function.update_eq_self, replaceAll_of_absent hnot, ite_self]

end Runs

section AllRuns

variable {pgSchema p : List Char} {gs : List (List Char)}

theorem firstFound_mono {sql : List Char} {names names' : List (List Char)} {kw : String}
    (hle : names <+: names') {f : Found} (h : firstFound pgSchema sql names kw = some f) :
    firstFound pgSchema sql names' kw = some f := by
  obtain ⟨more, rfl⟩ := hle
  unfold firstFound at h ⊢
  split_ifs at h with halready
  rw [if_neg halready, List.findSome?_append, h, Option.some_or]

/-- The names of each spelling when it has been tried with its own list of names. -/
def foundFor (pgSchema sql : List Char) (ns : String → List (List Char)) (kw : String) :
    Option Found :=
  firstFound pgSchema sql (ns kw) kw

theorem foundFor_update (sql : List Char) (ns : String → List (List Char)) (kw : String)
    (names : List (List Char)) :
    foundFor pgSchema sql (Function.update ns kw names) =
      Function.update (foundFor pgSchema sql ns) kw (firstFound pgSchema sql names kw) := by
  funext k
  unfold foundFor
  by_cases hk : k = kw
  · subst hk
    rw [Function.update_self, Function.update_self]
  · rw [Function.update_of_ne hk, Function.update_of_ne hk]

/-- `add_schema_prefix` tries one more name for each of the spellings that are left. -/
theorem foldl_prefixAfter {table : List Char} (hschema : ' ' ∉ pgSchema) (htable : ' ' ∉ table)
    (hp : ' ' ∉ p) (hgs : ∀ q ∈ gs, ' ' ∉ q) (kws : List String) (hsub : kws ⊆ prefixKeywords)
    (hnodup : kws.Nodup) (ns : String → List (List Char)) (hns : ∀ k, ∀ n ∈ ns k, ' ' ∉ n)
    (hover : NoOverlap (foundFor pgSchema (join ' ' p gs)
      fun k => if k ∈ kws then ns k ++ [table] else ns k) p gs) :
    kws.foldl (prefixAfter table pgSchema)
        (join ' ' p (qualifySegments pgSchema (foundFor pgSchema (join ' ' p gs) ns) p gs)) =
      join ' ' p (qualifySegments pgSchema (foundFor pgSchema (join ' ' p gs)
        fun k => if k ∈ kws then ns k ++ [table] else ns k) p gs) := by
  induction kws generalizing ns with
  | nil => simp
  | cons kw kws ih =>
    obtain ⟨hkw, hnodup⟩ := List.nodup_cons.mp hnodup
    have hnext : (fun k => if k ∈ kw :: kws then ns k ++ [table] else ns k) =
        fun k => if k ∈ kws then Function.update ns kw (ns kw ++ [table]) k ++ [table]
          else Function.update ns kw (ns kw ++ [table]) k := by
      funext k
      by_cases hk : k = kw
      · subst hk
        rw [if_pos List.mem_cons_self, if_neg hkw, Function.update_self]
      · rw [Function.update_of_ne hk]
        simp [hk]
    rw [hnext] at hover ⊢
    have hns' : ∀ k, ∀ n ∈ Function.update ns kw (ns kw ++ [table]) k, ' ' ∉ n := by
      intro k n hn
      by_cases hk : k = kw
      · subst hk
        rw [Function.update_self] at hn
        rcases List.mem_append.mp hn with hn | hn
        · exact hns k n hn
        · rw [List.mem_singleton.mp hn]
          exact htable
      · rw [Function.update_of_ne hk] at hn
        exact hns k n hn
    have hstep : NoOverlap (foundFor pgSchema (join ' ' p gs)
        (Function.update ns kw (ns kw ++ [table]))) p gs := by
      refine noOverlap_mono (fun k f hf => firstFound_mono ?_ hf) hover
      split_ifs
      · exact List.prefix_append _ _
      · exact List.prefix_refl _
    have hone : prefixAfter table pgSchema
        (join ' ' p (qualifySegments pgSchema (foundFor pgSchema (join ' ' p gs) ns) p gs)) kw =
          join ' ' p (qualifySegments pgSchema (foundFor pgSchema (join ' ' p gs)
            (Function.update ns kw (ns kw ++ [table]))) p gs) :=
      prefixAfter_qualify (E := foundFor pgSchema (join ' ' p gs) ns) (hsub List.mem_cons_self)
        hschema htable (hns kw) hp hgs rfl (foundFor_update (join ' ' p gs) ns kw (ns kw ++ [table])) hstep
    rw [List.foldl_cons, hone]
    exact ih (fun k hk => hsub (List.mem_cons_of_mem _ hk)) hnodup _ hns' hover

theorem hitOf_congr {E' : String → Option Found} (h : ∀ kw ∈ prefixKeywords, E kw = E' kw) :
    hitOf E = hitOf E' := by
  funext p q
  apply Option.ext
  intro f
  rw [hitOf_iff, hitOf_iff]
  apply exists_congr
  intro kw
  apply and_congr_right
  intro hkw
  rw [h kw hkw]

theorem qualifySegments_congr {E' : String → Option Found}
    (h : ∀ kw ∈ prefixKeywords, E kw = E' kw) :
    qualifySegments pgSchema E p gs = qualifySegments pgSchema E' p gs := by
  induction gs generalizing p with
  | nil => rfl
  | cons q gs ih =>
    have hput : put pgSchema E p q = put pgSchema E' p q := by
      unfold put rest
      rw [hitOf_congr h]
    rw [qualifySegments, qualifySegments, hput, ih]

theorem qualifySegments_none (h : ∀ kw ∈ prefixKeywords, E kw = none) :
    qualifySegments pgSchema E p gs = gs := by
  induction gs generalizing p with
  | nil => rfl
  | cons q gs ih =>
    have hhit : hitOf E p q = none := by
      rw [Option.eq_none_iff_forall_ne_some]
      intro f hf
      obtain ⟨kw, hkw, -, hE, -⟩ := hitOf_iff.mp hf
      rw [h kw hkw] at hE
      cases hE
    rw [qualifySegments, put_of_none hhit, ih]

theorem noOverlap_congr {E' : String → Option Found} (h : ∀ kw ∈ prefixKeywords, E kw = E' kw)
    (hover : NoOverlap E p gs) : NoOverlap E' p gs := by
  induction gs generalizing p with
  | nil => trivial
  | cons q gs ih =>
    refine ⟨?_, ih hover.2⟩
    have hrest : rest E' p q = rest E p q := by
      unfold rest
      rw [hitOf_congr h]
    rw [hrest]
    exact hover.1

/-- The loops over the names and the spellings are one pass over the segments of the query. -/
theorem foldl_addSchemaPrefix (hschema : ' ' ∉ pgSchema) (names : List (List Char))
    (hnames : ∀ n ∈ names, ' ' ∉ n) (hp : ' ' ∉ p) (hgs : ∀ q ∈ gs, ' ' ∉ q)
    (hover : NoOverlap (firstFound pgSchema (join ' ' p gs) names) p gs) :
    names.foldl (addSchemaPrefix pgSchema) (join ' ' p gs) =
      join ' ' p (qualifySegments pgSchema (firstFound pgSchema (join ' ' p gs) names) p gs) := by
  induction names using List.reverseRecOn with
  | nil =>
    have hnone : ∀ kw, firstFound pgSchema (join ' ' p gs) [] kw = none := by
      intro kw
      unfold firstFound
      split_ifs <;> rfl
    rw [qualifySegments_none fun kw _ => hnone kw]
    rfl
  | append_singleton names table ih =>
    have hkeywords : ∀ kw ∈ prefixKeywords,
        foundFor pgSchema (join ' ' p gs)
            (fun k => if k ∈ prefixKeywords then names ++ [table] else names) kw =
          firstFound pgSchema (join ' ' p gs) (names ++ [table]) kw := by
      intro kw hkw
      show firstFound pgSchema (join ' ' p gs)
        (if kw ∈ prefixKeywords then names ++ [table] else names) kw = _
      rw [if_pos hkw]
    have hlast := foldl_prefixAfter hschema (hnames table (by simp)) hp hgs prefixKeywords
      (List.Subset.refl _) (by decide) (fun _ => names) (fun _ n hn => hnames n (by simp [hn]))
      (noOverlap_congr (fun kw hkw => (hkeywords kw hkw).symm) hover)
    have hbefore : NoOverlap (firstFound pgSchema (join ' ' p gs) names) p gs :=
      noOverlap_mono (fun kw f hf => firstFound_mono (List.prefix_append _ _) hf) hover
    rw [List.foldl_append, ih (fun n hn => hnames n (by simp [hn])) hbefore, List.foldl_cons,
      List.foldl_nil, ← qualifySegments_congr hkeywords]
    exact hlast

end AllRuns

end Sql

end ForgeIndex
