import ForgeIndex.Lib.SqlLexer

/-!
# Continued strings

String constants that are apart by white space with a newline in it are one constant.  A line comment
may stand in the white space.  The text between two quotes is read as in `readQuoted`.
-/

namespace SqlLexer

theorem isSpace_of_isNewline {c : Char} (h : isNewline c = true) : isSpace c = true := by
  unfold isNewline at h
  simp only [Bool.or_eq_true, beq_iff_eq] at h
  rcases h with rfl | rfl <;> rfl

/-- White space and line comments, each with the end of its line. -/
inductive Spacing : List Char → Prop
  | nil : Spacing []
  | space {c : Char} {s : List Char} (hc : isSpace c = true) (hs : Spacing s) : Spacing (c :: s)
  | comment {text : List Char} {c : Char} {s : List Char} (htext : ∀ d ∈ text, isNewline d = false)
      (hc : isNewline c = true) (hs : Spacing s) : Spacing ('-' :: '-' :: (text ++ c :: s))

/-- Where a newline stands in the white space, a quote behind it goes on with the constant. -/
def ContinuedBy (rest tail : List Char) : Prop :=
  ∃ gap, Spacing gap ∧ (∃ c ∈ gap, isNewline c = true) ∧ rest = gap ++ '\'' :: tail

/-- What the reader is in the middle of behind a closing quote. -/
inductive Gap where
  | space | dash | comment
  deriving DecidableEq

/-- The text behind the quote that goes on with the constant; `broken` after a newline. -/
def continuation : Bool → Gap → List Char → Option (List Char)
  | _, _, [] => none
  | broken, .space, c :: s =>
    if isNewline c then continuation true .space s
    else if isSpace c then continuation broken .space s
    else if c = '-' then continuation broken .dash s
    else if broken = true ∧ c = '\'' then some s
    else none
  | broken, .dash, c :: s => if c = '-' then continuation broken .comment s else none
  | broken, .comment, c :: s =>
    if isNewline c then continuation true .space s else continuation broken .comment s

/-- What a gap is when the reader is in the middle of it. -/
def Gap.Behind (tail : List Char) (broken : Bool) : Gap → List Char → Prop
  | space, s => ∃ gap, Spacing gap ∧ (broken = true ∨ ∃ c ∈ gap, isNewline c = true) ∧
      s = gap ++ '\'' :: tail
  | dash, s => ∃ text c gap, (∀ d ∈ text, isNewline d = false) ∧ isNewline c = true ∧
      Spacing gap ∧ s = '-' :: (text ++ c :: gap ++ '\'' :: tail)
  | comment, s => ∃ text c gap, (∀ d ∈ text, isNewline d = false) ∧ isNewline c = true ∧
      Spacing gap ∧ s = text ++ c :: gap ++ '\'' :: tail

theorem behind_of_continuation {broken : Bool} {g : Gap} {s tail : List Char}
    (h : continuation broken g s = some tail) : g.Behind tail broken s := by
  induction s generalizing broken g with
  | nil => cases h
  | cons c s ih =>
    cases g with
    | space =>
      rw [continuation] at h
      split_ifs at h with hnewline hspace hdash hquote
      · obtain ⟨gap, hgap, -, hs⟩ := ih h
        refine ⟨c :: gap, hgap.space (isSpace_of_isNewline hnewline), ?_, ?_⟩
        · exact .inr ⟨c, List.mem_cons_self, hnewline⟩
        · rw [hs, List.cons_append]
      · obtain ⟨gap, hgap, hbroken, hs⟩ := ih h
        refine ⟨c :: gap, hgap.space hspace, hbroken.imp_right ?_, ?_⟩
        · exact fun ⟨d, hd, hnew⟩ => ⟨d, List.mem_cons_of_mem c hd, hnew⟩
        · rw [hs, List.cons_append]
      · obtain ⟨text, d, gap, htext, hd, hgap, hs⟩ := ih h
        refine ⟨'-' :: '-' :: (text ++ d :: gap), hgap.comment htext hd, .inr ⟨d, ?_, hd⟩, ?_⟩
        · simp
        · rw [hs, hdash]
          rfl
      · cases h
        exact ⟨[], .nil, .inl hquote.1, by rw [hquote.2]; rfl⟩
    | dash =>
      rw [continuation] at h
      split_ifs at h with hdash
      obtain ⟨text, d, gap, htext, hd, hgap, hs⟩ := ih h
      exact ⟨text, d, gap, htext, hd, hgap, by rw [hs, hdash]⟩
    | comment =>
      rw [continuation] at h
      split_ifs at h with hnewline
      · obtain ⟨gap, hgap, -, hs⟩ := ih h
        exact ⟨[], c, gap, by simp, hnewline, hgap, by rw [hs]; rfl⟩
      · obtain ⟨text, d, gap, htext, hd, hgap, hs⟩ := ih h
        refine ⟨c :: text, d, gap, ?_, hd, hgap, by rw [hs]; rfl⟩
        intro x hx
        rcases List.mem_cons.mp hx with rfl | hx
        · exact Bool.eq_false_of_not_eq_true hnewline
        · exact htext x hx

theorem continuation_comment {broken : Bool} {text : List Char} {c : Char}
    (htext : ∀ d ∈ text, isNewline d = false) (hc : isNewline c = true) (s : List Char) :
    continuation broken .comment (text ++ c :: s) = continuation true .space s := by
  induction text with
  | nil => rw [List.nil_append, continuation, if_pos hc]
  | cons d text ih =>
    have hd := htext d List.mem_cons_self
    rw [List.cons_append, continuation, hd, if_neg Bool.false_ne_true]
    exact ih fun x hx => htext x (List.mem_cons_of_mem d hx)

theorem continuation_gap {broken : Bool} {gap tail : List Char} (hgap : Spacing gap)
    (hbroken : broken = true ∨ ∃ c ∈ gap, isNewline c = true) :
    continuation broken .space (gap ++ '\'' :: tail) = some tail := by
  induction hgap generalizing broken with
  | nil =>
    have htrue : broken = true := by simpa using hbroken
    rw [htrue]
    rfl
  | @space c s hc _ ih =>
    rw [List.cons_append, continuation]
    split_ifs with hnewline
    · exact ih (.inl rfl)
    · apply ih
      refine hbroken.imp_right fun ⟨d, hd, hnew⟩ => ?_
      rcases List.mem_cons.mp hd with rfl | hd
      · exact absurd hnew hnewline
      · exact ⟨d, hd, hnew⟩
  | @comment text c s htext hc _ ih =>
    have htail := ih (.inl rfl)
    rw [← @continuation_comment broken text c htext hc] at htail
    simpa [continuation, isNewline, isSpace] using htail

theorem continuation_eq_some_iff {rest tail : List Char} :
    continuation false .space rest = some tail ↔ ContinuedBy rest tail := by
  constructor
  · intro h
    obtain ⟨gap, hgap, hbroken, hrest⟩ := behind_of_continuation h
    exact ⟨gap, hgap, hbroken.resolve_left Bool.false_ne_true, hrest⟩
  · intro ⟨gap, hgap, hnewline, hrest⟩
    rw [hrest]
    exact continuation_gap hgap (.inr hnewline)

theorem ContinuedBy.length_lt {rest tail : List Char} (h : ContinuedBy rest tail) :
    tail.length < rest.length := by
  obtain ⟨gap, -, -, rfl⟩ := h
  rw [List.length_append, List.length_cons]
  omega

theorem length_readQuoted {quote : Char} {s v rest : List Char}
    (h : readQuoted quote false s = some (v, rest)) : rest.length < s.length := by
  have hs := congrArg List.length (readQuoted_eq_some_iff.mp h).1
  rw [List.length_append, List.length_cons] at hs
  omega

/-- The value of a constant and the text behind it.  The text begins behind the first quote. -/
def readString (s : List Char) : Option (List Char × List Char) :=
  match _ : readQuoted '\'' false s with
  | none => none
  | some (v, rest) =>
    match _ : continuation false .space rest with
    | none => some (v, rest)
    | some tail => (readString tail).map fun p => (v ++ p.1, p.2)
termination_by s.length
decreasing_by
  rename_i hread hcont
  have htail := (continuation_eq_some_iff.mp hcont).length_lt
  have hrest := length_readQuoted hread
  omega

/-- The constant at the head of a SQL text. -/
def readConstant : List Char → Option (List Char × List Char)
  | [] => none
  | c :: s => if c = '\'' ∧ NulFree s then readString s else none

section Parts

variable {s v rest tail : List Char}

theorem readString_eq (s : List Char) :
    readString s = match readQuoted '\'' false s with
      | none => none
      | some (v, rest) =>
        match continuation false .space rest with
        | none => some (v, rest)
        | some tail => (readString tail).map fun p => (v ++ p.1, p.2) := by
  rw [readString]
  split
  · next hread => rw [hread]
  · next hread =>
    rw [hread]
    dsimp only
    split
    · next hcont => rw [hcont]
    · next hcont => rw [hcont]

theorem readString_last (hread : readQuoted '\'' false s = some (v, rest))
    (hlast : ¬∃ tail, ContinuedBy rest tail) : readString s = some (v, rest) := by
  have hnone : continuation false .space rest = none := by
    rw [Option.eq_none_iff_forall_ne_some]
    intro tail htail
    exact hlast ⟨tail, continuation_eq_some_iff.mp htail⟩
  rw [readString_eq, hread]
  dsimp only
  rw [hnone]

theorem readString_part (hread : readQuoted '\'' false s = some (v, rest))
    (htail : ContinuedBy rest tail) :
    readString s = (readString tail).map fun p => (v ++ p.1, p.2) := by
  have hsome := continuation_eq_some_iff.mpr htail
  rw [readString_eq, hread]
  dsimp only
  rw [hsome]

/-- The first part is the beginning of the value, and the text behind the constant is no longer than
the text behind this part. -/
theorem exists_part_of_readString (h : readString s = some (v, rest)) :
    ∃ first behind, readQuoted '\'' false s = some (first, behind) ∧ first <+: v ∧
      rest.length ≤ behind.length := by
  induction hn : s.length using Nat.strong_induction_on generalizing s v with
  | _ n ih =>
    cases hread : readQuoted '\'' false s with
    | none =>
      rw [readString_eq, hread] at h
      cases h
    | some p =>
      obtain ⟨first, behind⟩ := p
      refine ⟨first, behind, rfl, ?_⟩
      by_cases hlast : ∃ tail, ContinuedBy behind tail
      · obtain ⟨tail, htail⟩ := hlast
        have hlength := htail.length_lt
        have hbehind := length_readQuoted hread
        rw [readString_part hread htail, Option.map_eq_some_iff] at h
        obtain ⟨⟨more, rest'⟩, hmore, hvalue⟩ := h
        cases hvalue
        obtain ⟨first', behind', hread', -, hle⟩ := ih _ (by omega) hmore rfl
        have hbehind' := length_readQuoted hread'
        exact ⟨List.prefix_append first more, by omega⟩
      · rw [readString_last hread hlast] at h
        cases h
        exact ⟨List.prefix_rfl, le_rfl⟩

theorem length_readString (h : readString s = some (v, rest)) : rest.length < s.length := by
  obtain ⟨first, behind, hread, -, hle⟩ := exists_part_of_readString h
  exact Nat.lt_of_le_of_lt hle (length_readQuoted hread)

/-- A string with its quotes doubled is read back, and nothing behind its last quote is read, if and
only if neither a quote nor a continuation is there. -/
theorem readString_doubled_iff :
    readString (doubled '\'' v ++ '\'' :: rest) = some (v, rest) ↔
      rest.head? ≠ some '\'' ∧ ¬∃ tail, ContinuedBy rest tail := by
  constructor
  · intro h
    have hquote : rest.head? ≠ some '\'' := by
      intro hhead
      -- the last quote and the one behind it are a quote of the value, which is too long then
      obtain ⟨behind, hbehind⟩ := List.head?_eq_some_iff.mp hhead
      obtain ⟨first, _, hread, hprefix, -⟩ := exists_part_of_readString h
      have hpair : '\'' :: '\'' :: behind = doubled '\'' ['\''] ++ behind := rfl
      rw [hbehind, hpair, readQuoted_doubled_append, readQuoted_doubled_append, Option.map_map,
        Option.map_eq_some_iff] at hread
      obtain ⟨⟨more, _⟩, -, hvalue⟩ := hread
      have hfirst : v ++ ('\'' :: more) = first := congrArg Prod.fst hvalue
      have hlength := hprefix.length_le
      rw [← hfirst, List.length_append, List.length_cons] at hlength
      omega
    refine ⟨hquote, fun ⟨tail, htail⟩ => ?_⟩
    rw [readString_part (readQuoted_doubled hquote) htail, Option.map_eq_some_iff] at h
    obtain ⟨⟨_, _⟩, hmore, hvalue⟩ := h
    have hrest := congrArg (fun p => p.2.length) hvalue
    have hlength := length_readString hmore
    have hshort := htail.length_lt
    dsimp only at hrest
    omega
  · intro ⟨hquote, hlast⟩
    exact readString_last (readQuoted_doubled hquote) hlast

theorem readConstant_doubled_iff :
    readConstant ('\'' :: (doubled '\'' v ++ '\'' :: rest)) = some (v, rest) ↔
      (NulFree v ∧ NulFree rest) ∧ rest.head? ≠ some '\'' ∧ ¬∃ tail, ContinuedBy rest tail := by
  have hnul : NulFree (doubled '\'' v ++ '\'' :: rest) ↔ NulFree v ∧ NulFree rest := by
    have hquote : '\'' ≠ Char.ofNat 0 := by decide
    rw [nulFree_append, nulFree_doubled, nulFree_cons]
    simp [hquote]
  rw [readConstant, ← readString_doubled_iff (v := v), ← hnul]
  by_cases h : NulFree (doubled '\'' v ++ '\'' :: rest)
  · simp [h]
  · simp [h]

end Parts

end SqlLexer
