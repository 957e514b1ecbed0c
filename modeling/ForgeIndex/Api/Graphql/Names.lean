import Mathlib.Data.List.Nodup
import Mathlib.Data.List.Pairwise
import ForgeIndex.Lib.AsciiCase
import ForgeIndex.Schema

/-!
# Names of the GraphQL schema

The names that `GraphqlSchema::build` makes of the names of the tables: two query fields and four
types for each, next to the types that all tables share.  The words of a table name are put together
without their underscores, so that different tables may come to one name.
-/

namespace ForgeIndex

namespace Names

/-- The loop of `to_camel_case`: the index of the character, and `capitalize_next`. -/
def camelLoop : ℕ → Bool → List Char → List Char
  | _, _, [] => []
  | i, capitalizeNext, c :: s =>
    if c = '_' then camelLoop (i + 1) true s
    else if capitalizeNext then c.toUpper :: camelLoop (i + 1) false s
    else if i = 0 then c.toLower :: camelLoop (i + 1) capitalizeNext s
    else c :: camelLoop (i + 1) capitalizeNext s

def toCamelCase (s : List Char) : List Char := camelLoop 0 false s

/-- The loop of `to_pascal_case`. -/
def pascalLoop : Bool → List Char → List Char
  | _, [] => []
  | capitalizeNext, c :: s =>
    if c = '_' then pascalLoop true s
    else if capitalizeNext then c.toUpper :: pascalLoop false s
    else c :: pascalLoop capitalizeNext s

def toPascalCase (s : List Char) : List Char := pascalLoop true s

/-- The query fields of a table. -/
def fieldNamesOf (t : TableDef) : List (List Char) :=
  let field := toCamelCase t.name.toList
  [field, field ++ "s".toList]

/-- The types of a table. -/
def typeNamesOf (t : TableDef) : List (List Char) :=
  let typeName := toPascalCase t.name.toList
  [typeName, typeName ++ "Page".toList, typeName ++ "Filter".toList, typeName ++ "OrderBy".toList]

/-- The types that all tables share. -/
def sharedTypes : List (List Char) :=
  ["PageInfo".toList, "OrderDirection".toList, "StringFilter".toList, "IntFilter".toList,
    "BoolFilter".toList]

def fieldNames (s : Schema) : List (List Char) := s.tables.flatMap fieldNamesOf

def typeNames (s : Schema) : List (List Char) := sharedTypes ++ s.tables.flatMap typeNamesOf

/-- The parts between the underscores. -/
def words (name : List Char) : List (List Char) := name.splitOn '_'

/-- A word with a capital letter. -/
def capitalised : List Char → List Char
  | [] => []
  | c :: w => c.toUpper :: w

/-- A word with a small letter. -/
def lowered : List Char → List Char
  | [] => []
  | c :: w => c.toLower :: w

/-- All words with capital letters. -/
def typeForm (name : List Char) : List Char := (words name).flatMap capitalised

/-- The first word with a small letter, the others with capital letters. -/
def fieldForm (name : List Char) : List Char :=
  match words name with
  | [] => []
  | w :: ws => lowered w ++ ws.flatMap capitalised

theorem words_underscore (s : List Char) : words ('_' :: s) = [] :: words s := by
  unfold words
  rw [List.splitOn_cons_eq_if_modifyHead]
  rfl

theorem exists_words (s : List Char) : ∃ w ws, words s = w :: ws :=
  List.exists_cons_of_ne_nil (List.splitOn_ne_nil _ _)

theorem words_cons {c : Char} (hc : c ≠ '_') {s w : List Char} {ws : List (List Char)}
    (h : words s = w :: ws) : words (c :: s) = (c :: w) :: ws := by
  unfold words at h ⊢
  rw [List.splitOn_cons_eq_if_modifyHead, h]
  simp [hc]

/-- Inside of a word the loop copies it, and it gives the words behind it their capitals. -/
theorem pascalLoop_eq {s w : List Char} {ws : List (List Char)} (h : words s = w :: ws) :
    pascalLoop false s = w ++ ws.flatMap capitalised ∧
      pascalLoop true s = capitalised w ++ ws.flatMap capitalised := by
  induction s generalizing w ws with
  | nil =>
    obtain ⟨rfl, rfl⟩ := List.cons.inj h
    exact ⟨rfl, rfl⟩
  | cons c s ih =>
    obtain ⟨v, vs, hs⟩ := exists_words s
    obtain ⟨hfalse, htrue⟩ := ih hs
    by_cases hc : c = '_'
    · subst hc
      rw [words_underscore, hs] at h
      obtain ⟨rfl, rfl⟩ := List.cons.inj h
      have hloop (b : Bool) : pascalLoop b ('_' :: s) = pascalLoop true s := by
        rw [pascalLoop, if_pos rfl]
      rw [hloop, hloop, htrue, List.flatMap_cons]
      exact ⟨rfl, rfl⟩
    · rw [words_cons hc hs] at h
      obtain ⟨rfl, rfl⟩ := List.cons.inj h
      rw [pascalLoop, pascalLoop, if_neg hc, if_neg hc, if_neg Bool.false_ne_true, if_pos rfl,
        hfalse]
      exact ⟨rfl, rfl⟩

theorem toPascalCase_eq (name : List Char) : toPascalCase name = typeForm name := by
  obtain ⟨w, ws, h⟩ := exists_words name
  unfold toPascalCase typeForm
  rw [(pascalLoop_eq h).2, h, List.flatMap_cons]

theorem camelLoop_succ (i : ℕ) (b : Bool) (s : List Char) :
    camelLoop (i + 1) b s = pascalLoop b s := by
  induction s generalizing i b with
  | nil => rfl
  | cons c s ih =>
    rw [camelLoop, pascalLoop, if_neg (Nat.succ_ne_zero i), ih, ih, ih]

theorem toCamelCase_eq (name : List Char) : toCamelCase name = fieldForm name := by
  unfold toCamelCase fieldForm
  cases name with
  | nil => rfl
  | cons c s =>
    obtain ⟨w, ws, h⟩ := exists_words s
    rw [camelLoop, camelLoop_succ, camelLoop_succ]
    by_cases hc : c = '_'
    · rw [if_pos hc, hc, words_underscore, h, (pascalLoop_eq h).2]
      dsimp only
      rw [List.flatMap_cons]
      rfl
    · rw [if_neg hc, if_neg Bool.false_ne_true, if_pos rfl, words_cons hc h, (pascalLoop_eq h).1]
      rfl

theorem capitalised_fieldForm (name : List Char) : capitalised (fieldForm name) = typeForm name := by
  have hwords (ws : List (List Char)) :
      capitalised (ws.flatMap capitalised) = ws.flatMap capitalised := by
    induction ws with
    | nil => rfl
    | cons w ws ih =>
      cases w with
      | nil => exact ih
      | cons c w =>
        rw [List.flatMap_cons]
        exact congrArg (· :: (w ++ ws.flatMap capitalised)) (AsciiCase.toUpper_toUpper c)
  obtain ⟨w, ws, h⟩ := exists_words name
  unfold fieldForm typeForm
  rw [h, List.flatMap_cons]
  dsimp only
  cases w with
  | nil => exact hwords ws
  | cons c w => exact congrArg (· :: (w ++ ws.flatMap capitalised)) (AsciiCase.toUpper_toLower c)

/-- What is put behind the name of a type. -/
def typeSuffixes : List (List Char) := ["Page".toList, "Filter".toList, "OrderBy".toList]

/-- The names that make one of the shared types, on their own or with the suffix for filters. -/
def reserved : List (List Char) :=
  sharedTypes ++ ["String".toList, "Int".toList, "Bool".toList]

/-- No name is made twice. -/
structure Apart (s : Schema) : Prop where
  /-- The words of two tables do not make the same name. -/
  types : ∀ t ∈ s.tables, ∀ u ∈ s.tables, t.name ≠ u.name →
    typeForm t.name.toList ≠ typeForm u.name.toList
  /-- No table is the plural of another. -/
  plurals : ∀ t ∈ s.tables, ∀ u ∈ s.tables,
    fieldForm t.name.toList ≠ fieldForm u.name.toList ++ "s".toList
  /-- No table is called like the page, the filter or the order of another. -/
  suffixed : ∀ t ∈ s.tables, ∀ u ∈ s.tables, ∀ suffix ∈ typeSuffixes,
    typeForm t.name.toList ≠ typeForm u.name.toList ++ suffix
  unreserved : ∀ t ∈ s.tables, typeForm t.name.toList ∉ reserved

section Families

variable {α κ β : Type} {key : α → κ} {l : List α} {f : α → List β}

/-- The names that are made of keyed things are distinct if those of each thing are, and different
keys have no name in common. -/
theorem nodup_flatMap_iff (hkeys : (l.map key).Nodup) :
    (l.flatMap f).Nodup ↔ (∀ a ∈ l, (f a).Nodup) ∧
      ∀ a ∈ l, ∀ b ∈ l, key a ≠ key b → ∀ x ∈ f a, x ∉ f b := by
  have hinj : ∀ a ∈ l, ∀ b ∈ l, key a = key b → a = b := List.inj_on_of_nodup_map hkeys
  rw [List.nodup_flatMap]
  apply and_congr_right
  intro _
  constructor
  · intro hpairs a ha b hb hne x hxa hxb
    have hsymm : Std.Symm (Function.onFun (@List.Disjoint β) f) :=
      ⟨fun _ _ h _ hy hx => h hx hy⟩
    exact hpairs.forall ha hb (fun heq => hne (congrArg key heq)) hxa hxb
  · intro hdisjoint
    apply (List.Nodup.of_map key hkeys).pairwise_of_forall_ne
    intro a ha b hb hne x hxa hxb
    exact hdisjoint a ha b hb (fun heq => hne (hinj a ha b hb heq)) x hxa hxb

end Families

theorem mem_fieldNamesOf {t : TableDef} {x : List Char} :
    x ∈ fieldNamesOf t ↔
      x = fieldForm t.name.toList ∨ x = fieldForm t.name.toList ++ "s".toList := by
  unfold fieldNamesOf
  rw [toCamelCase_eq]
  simp

theorem nodup_fieldNamesOf (t : TableDef) : (fieldNamesOf t).Nodup := by
  unfold fieldNamesOf
  simp

theorem fieldNames_nodup {s : Schema} (h : validateSchema s = []) (hapart : Apart s) :
    (fieldNames s).Nodup := by
  refine (nodup_flatMap_iff (nodup_of_validateSchema h)).mpr ⟨fun t _ => nodup_fieldNamesOf t, ?_⟩
  intro t ht u hu hne x hxt hxu
  have hfield : fieldForm t.name.toList ≠ fieldForm u.name.toList := by
    intro heq
    apply hapart.types t ht u hu hne
    rw [← capitalised_fieldForm, heq, capitalised_fieldForm]
  rcases mem_fieldNamesOf.mp hxt with rfl | rfl
  · rcases mem_fieldNamesOf.mp hxu with heq | heq
    · exact hfield heq
    · exact hapart.plurals t ht u hu heq
  · rcases mem_fieldNamesOf.mp hxu with heq | heq
    · exact hapart.plurals u hu t ht heq.symm
    · exact hfield (List.append_cancel_right heq)

theorem mem_typeNamesOf {t : TableDef} {x : List Char} :
    x ∈ typeNamesOf t ↔ x = typeForm t.name.toList ∨
      ∃ suffix ∈ typeSuffixes, x = typeForm t.name.toList ++ suffix := by
  unfold typeNamesOf typeSuffixes
  rw [toPascalCase_eq]
  simp

theorem suffix_unique {p q suffix suffix' : List Char} (hs : suffix ∈ typeSuffixes)
    (hs' : suffix' ∈ typeSuffixes) (h : p ++ suffix = q ++ suffix') : p = q ∧ suffix = suffix' := by
  have hlast : suffix.getLast? = suffix'.getLast? := by
    have hall : ∀ suffix ∈ typeSuffixes, suffix ≠ [] := by decide
    rw [← List.getLast?_append_of_ne_nil p (hall suffix hs), h,
      List.getLast?_append_of_ne_nil q (hall suffix' hs')]
  have heq : suffix = suffix' := by
    have hall : ∀ suffix ∈ typeSuffixes, ∀ suffix' ∈ typeSuffixes,
        suffix.getLast? = suffix'.getLast? → suffix = suffix' := by decide
    exact hall suffix hs suffix' hs' hlast
  subst heq
  exact ⟨List.append_cancel_right h, rfl⟩

theorem nodup_typeNamesOf (t : TableDef) : (typeNamesOf t).Nodup := by
  unfold typeNamesOf
  simp

theorem filter_of_shared {p suffix : List Char} (hs : suffix ∈ typeSuffixes)
    (h : p ++ suffix ∈ sharedTypes) : p ∈ ["String".toList, "Int".toList, "Bool".toList] := by
  have hall : ∀ x ∈ sharedTypes, ∀ suffix ∈ typeSuffixes, suffix <:+ x →
      x.take (x.length - suffix.length) ∈ ["String".toList, "Int".toList, "Bool".toList] := by
    decide
  have hp := hall _ h suffix hs (List.suffix_append p suffix)
  rwa [List.length_append, Nat.add_sub_cancel, List.take_left] at hp

theorem typeNames_nodup {s : Schema} (h : validateSchema s = []) (hapart : Apart s) :
    (typeNames s).Nodup := by
  refine List.nodup_append.mpr ⟨by decide, ?_, ?_⟩
  · refine (nodup_flatMap_iff (nodup_of_validateSchema h)).mpr
      ⟨fun t _ => nodup_typeNamesOf t, ?_⟩
    intro t ht u hu hne x hxt hxu
    have htype := hapart.types t ht u hu hne
    rcases mem_typeNamesOf.mp hxt with rfl | ⟨suffix, hs, rfl⟩
    · rcases mem_typeNamesOf.mp hxu with heq | ⟨suffix, hs, heq⟩
      · exact htype heq
      · exact hapart.suffixed t ht u hu suffix hs heq
    · rcases mem_typeNamesOf.mp hxu with heq | ⟨suffix', hs', heq⟩
      · exact hapart.suffixed u hu t ht suffix hs heq.symm
      · exact htype (suffix_unique hs hs' heq).1
  · rintro x hshared _ hx rfl
    obtain ⟨t, ht, hxt⟩ := List.mem_flatMap.mp hx
    apply hapart.unreserved t ht
    rcases mem_typeNamesOf.mp hxt with rfl | ⟨suffix, hs, rfl⟩
    · exact List.mem_append_left _ hshared
    · exact List.mem_append_right _ (filter_of_shared hs hshared)

/-- The names of an accepted schema are all different if and only if the names of its tables make no
name twice. -/
theorem names_distinct_iff {s : Schema} (h : validateSchema s = []) :
    (fieldNames s).Nodup ∧ (typeNames s).Nodup ↔ Apart s := by
  have hkeys := nodup_of_validateSchema h
  constructor
  · intro ⟨hfields, htypes⟩
    have hfield := ((nodup_flatMap_iff hkeys).mp hfields).2
    obtain ⟨-, hown, hshared⟩ := List.nodup_append.mp htypes
    have htype := ((nodup_flatMap_iff hkeys).mp hown).2
    refine ⟨?_, ?_, ?_, ?_⟩
    · intro t ht u hu hne heq
      exact htype t ht u hu hne _ (mem_typeNamesOf.mpr (.inl rfl)) (mem_typeNamesOf.mpr (.inl heq))
    · intro t ht u hu heq
      by_cases hne : t.name = u.name
      · rw [hne] at heq
        simp at heq
      · exact hfield t ht u hu hne _ (mem_fieldNamesOf.mpr (.inl rfl))
          (mem_fieldNamesOf.mpr (.inr heq))
    · intro t ht u hu suffix hs heq
      by_cases hne : t.name = u.name
      · have hall : ∀ suffix ∈ typeSuffixes, suffix ≠ [] := by decide
        rw [hne] at heq
        exact hall suffix hs (List.self_eq_append_right.mp heq)
      · exact htype t ht u hu hne _ (mem_typeNamesOf.mpr (.inl rfl))
          (mem_typeNamesOf.mpr (.inr ⟨suffix, hs, heq⟩))
    · intro t ht hreserved
      rcases List.mem_append.mp hreserved with hmem | hmem
      · exact hshared _ hmem _
          (List.mem_flatMap.mpr ⟨t, ht, mem_typeNamesOf.mpr (.inl rfl)⟩) rfl
      · have hall : ∀ p ∈ ["String".toList, "Int".toList, "Bool".toList],
            p ++ "Filter".toList ∈ sharedTypes := by decide
        have hfilter : "Filter".toList ∈ typeSuffixes := by decide
        exact hshared _ (hall _ hmem) _ (List.mem_flatMap.mpr
          ⟨t, ht, mem_typeNamesOf.mpr (.inr ⟨_, hfilter, rfl⟩)⟩) rfl
  · exact fun hapart => ⟨fieldNames_nodup h hapart, typeNames_nodup h hapart⟩

/-- A table with a key. -/
def keyed (name : String) : TableDef where
  name := name
  columns := [{ name := "id", primaryKey := true }]

/-- The tables `accounts` and `transfer_events`. -/
theorem names_distinct_iff_transfers :
    let s : Schema := ⟨[keyed "accounts", keyed "transfer_events"]⟩
    (fieldNames s).Nodup ∧ (typeNames s).Nodup := by
  intro s
  refine (names_distinct_iff (by decide)).mpr ⟨by decide, by decide, by decide, by decide⟩

/-- The tables `token` and `tokens` are accepted, and the list of the one is the record of the
other. -/
theorem names_clash :
    let s : Schema := ⟨[keyed "token", keyed "tokens"]⟩
    validateSchema s = [] ∧
      fieldNames s = ["token".toList, "tokens".toList, "tokens".toList, "tokenss".toList] ∧
      ¬((fieldNames s).Nodup ∧ (typeNames s).Nodup) := by
  decide

end Names

end ForgeIndex
