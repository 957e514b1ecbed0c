import Mathlib.Data.Bool.AllAny
import ForgeIndex.Api.Sql.Parser

/-!
# Keywords and words

The scan of the validator finds the first whole-word occurrence of a keyword, and no identifier of
an accepted query is a banned word.
-/

namespace ForgeIndex

open Text

namespace Sql

section Scan

variable {u k : List Char}

/-- The keyword occurs at an index with no word byte before or after it. -/
def StandsAt (u k : List Char) (i : ℕ) : Prop := k <+: u.drop i ∧ standsAlone u k i = true

/-- Inside of an occurrence no other one stands alone: it has a letter of the keyword before it. -/
theorem behind_of_occurs (hword : ∀ c ∈ k, wordByte c = true) {i j : ℕ} (hocc : k <+: u.drop i)
    (h : StandsAt u k j) (hlt : i < j) : i + k.length ≤ j := by
  by_contra hnot
  have hprev : u[j - 1]? = k[j - 1 - i]? := by
    obtain ⟨rest, hrest⟩ := hocc
    have hget := congrArg (fun l => l[j - 1 - i]?) hrest
    rw [List.getElem?_append_left (by omega), List.getElem?_drop] at hget
    rw [hget]
    congr 1
    omega
  have hin : j - 1 - i < k.length := by omega
  rw [List.getElem?_eq_getElem hin] at hprev
  have hletter := hword _ (List.getElem_mem hin)
  have halone := h.2
  unfold standsAlone at halone
  rw [hprev] at halone
  have hzero : (j == 0) = false := by
    rw [beq_eq_false_iff_ne]
    omega
  simp [hzero, hletter] at halone

/-- The loop finds the first whole-word occurrence.  A rejected occurrence may be skipped as a
whole: what starts inside it has a letter of the keyword before it. -/
theorem scanKeyword_spec (hk : k ≠ []) (hword : ∀ c ∈ k, wordByte c = true) (fuel start : ℕ)
    (hfuel : u.length < start + fuel) (hbelow : ∀ j < start, ¬StandsAt u k j) :
    match scanKeyword u k fuel start with
    | some i => StandsAt u k i ∧ ∀ j < i, ¬StandsAt u k j
    | none => ∀ j, ¬StandsAt u k j := by
  have hlen : 0 < k.length := List.length_pos_iff.mpr hk
  have hinside : ∀ j, StandsAt u k j → j + k.length ≤ u.length := by
    intro j hj
    have := hj.1.length_le
    rw [List.length_drop] at this
    omega
  induction fuel generalizing start with
  | zero =>
    intro j hj
    have := hinside j hj
    exact hbelow j (by omega) hj
  | succ fuel ih =>
    unfold scanKeyword
    cases hfind : find k (u.drop start) with
    | none =>
      intro j hj
      apply find_eq_none_iff.mp hfind
      by_cases hlt : j < start
      · exact absurd hj (hbelow j hlt)
      · have hsplit : u.drop j = (u.drop start).drop (j - start) := by
          rw [List.drop_drop]
          congr 1
          omega
        have hocc := hj.1
        rw [hsplit] at hocc
        exact hocc.isInfix.trans (List.drop_suffix _ _).isInfix
    | some pos =>
      obtain ⟨hocc, hle, hleast⟩ := find_eq_some_iff.mp hfind
      rw [List.drop_drop] at hocc
      have hbefore : ∀ j < start + pos, ¬StandsAt u k j := by
        intro j hj hstands
        by_cases hlt : j < start
        · exact hbelow j hlt hstands
        · apply hleast (j - start) (by omega)
          rw [List.drop_drop, show start + (j - start) = j by omega]
          exact hstands.1
      dsimp only
      by_cases halone : standsAlone u k (start + pos) = true
      · rw [if_pos halone]
        exact ⟨⟨hocc, halone⟩, hbefore⟩
      · rw [if_neg halone]
        apply ih (start + pos + k.length) (by omega)
        intro j hj hstands
        by_cases hlt : j < start + pos
        · exact hbefore j hlt hstands
        · by_cases heq : j = start + pos
          · exact halone (heq ▸ hstands.2)
          · have hbehind := behind_of_occurs hword hocc hstands (by omega)
            omega

theorem keywordIndex_spec (hk : k ≠ []) (hword : ∀ c ∈ k, wordByte c = true) :
    match keywordIndex u k with
    | some i => StandsAt u k i ∧ ∀ j < i, ¬StandsAt u k j
    | none => ∀ j, ¬StandsAt u k j :=
  scanKeyword_spec hk hword (u.length + 1) 0 (by omega) (by simp)

theorem keywordIndex_eq (hk : k ≠ []) (hword : ∀ c ∈ k, wordByte c = true) {i : ℕ}
    (h : StandsAt u k i) (hfirst : ∀ j < i, ¬StandsAt u k j) : keywordIndex u k = some i := by
  have hspec := keywordIndex_spec (u := u) hk hword
  cases hindex : keywordIndex u k with
  | none =>
    rw [hindex] at hspec
    exact absurd h (hspec i)
  | some j =>
    rw [hindex] at hspec
    have hle : ¬i < j := fun hlt => hspec.2 i hlt h
    have hge : ¬j < i := fun hlt => hfirst j hlt hspec.1
    congr 1
    omega

theorem containsKeyword_iff (hk : k ≠ []) (hword : ∀ c ∈ k, wordByte c = true) :
    containsKeyword u k = true ↔ ∃ i, StandsAt u k i := by
  have hspec := keywordIndex_spec (u := u) hk hword
  unfold containsKeyword
  cases hindex : keywordIndex u k with
  | none =>
    rw [hindex] at hspec
    simpa using hspec
  | some i =>
    rw [hindex] at hspec
    exact iff_of_true rfl ⟨i, hspec.1⟩

end Scan

/-- A character of an SQL identifier: an ASCII letter or digit, underscore, dollar, or any
character beyond ASCII. -/
def identChar (c : Char) : Bool := wordByte c || c == '$' || decide (128 ≤ c.toNat)

/-- A maximal run of identifier characters. -/
def IdentifierToken (text token : List Char) : Prop :=
  token ≠ [] ∧ (∀ c ∈ token, identChar c = true) ∧ ∃ before after, text = before ++ token ++ after ∧
    (∀ c ∈ before.getLast?, identChar c = false) ∧ ∀ c ∈ after.head?, identChar c = false

section Words

variable {tables : CaseTables}

theorem toUpper_eq_self {c : Char} (h : wordByte c = false) : c.toUpper = c := by
  unfold Char.toUpper
  split_ifs with hlower
  · have halpha : c.isAlphanum = true := by
      have hletter : c.isLower = true := by
        show (decide _ && decide _) = true
        simpa using hlower
      show (c.isUpper || c.isLower || c.isDigit) = true
      rw [hletter]
      simp
    simp [wordByte, halpha] at h
  · rfl

theorem lt_of_wordByte {c : Char} (h : wordByte c = true) : c.toNat < 128 := by
  have hle : ∀ d : Char, d.toNat < 128 → c ≤ d → c.toNat < 128 := fun d hd hcd =>
    Nat.lt_of_le_of_lt (UInt32.le_iff_toNat_le.mp hcd) hd
  delta wordByte Char.isAlphanum Char.isAlpha Char.isUpper Char.isLower Char.isDigit at h
  simp only [Bool.or_eq_true, Bool.and_eq_true, decide_eq_true_eq, beq_iff_eq] at h
  rcases h with ((h | h) | h) | h
  · exact hle 'Z' (by decide) h.2
  · exact hle 'z' (by decide) h.2
  · exact hle '9' (by decide) h.2
  · rw [h]
    decide

theorem ascii_of_toUpper {c : Char} (h : c.toUpper.toNat < 128) : c.toNat < 128 := by
  unfold Char.toUpper at h
  split_ifs at h with hlower
  · have h2 : c.val ≤ 'z'.val := hlower.2
    have : c.toNat ≤ 122 := h2
    omega
  · exact h

theorem toUppercase_append (a b : List Char) :
    tables.toUppercase (a ++ b) = tables.toUppercase a ++ tables.toUppercase b :=
  List.flatMap_append

theorem toUppercase_of_ascii {w : List Char} (h : ∀ c ∈ w, c.toNat < 128) :
    tables.toUppercase w = w.map Char.toUpper := by
  induction w with
  | nil => rfl
  | cons c w ih =>
    unfold CaseTables.toUppercase at ih ⊢
    rw [List.flatMap_cons, tables.upper_ascii c (h c List.mem_cons_self),
      ih fun d hd => h d (List.mem_cons_of_mem _ hd)]
    rfl

/-- An ASCII character that continues no word. -/
def Boundary (c : Char) : Prop := wordByte c = false ∧ c.toNat < 128

theorem upper_of_boundary {c : Char} (h : Boundary c) : tables.upper c = [c] := by
  rw [tables.upper_ascii c h.2, toUpper_eq_self h.1]

theorem boundary_of_identChar {c : Char} (h : identChar c = false) : Boundary c := by
  unfold identChar at h
  simp only [Bool.or_eq_false_iff, decide_eq_false_iff_not, not_le] at h
  exact ⟨h.1.1, h.2⟩

variable (tables) in
theorem standsAt_of_word {before w after k : List Char} (hup : w.map Char.toUpper = k)
    (hascii : ∀ c ∈ k, c.toNat < 128) (hbefore : ∀ c ∈ before.getLast?, Boundary c)
    (hafter : ∀ c ∈ after.head?, Boundary c) :
    StandsAt (tables.toUppercase (before ++ w ++ after)) k (tables.toUppercase before).length := by
  have hw : tables.toUppercase w = k := by
    rw [toUppercase_of_ascii, hup]
    intro c hc
    apply ascii_of_toUpper
    apply hascii
    rw [← hup]
    exact List.mem_map_of_mem hc
  rw [toUppercase_append, toUppercase_append, hw]
  constructor
  · rw [List.append_assoc, List.drop_left]
    exact List.prefix_append _ _
  · unfold standsAlone
    rw [Bool.and_eq_true, Bool.or_eq_true]
    constructor
    · rcases List.eq_nil_or_concat before with rfl | ⟨front, c, rfl⟩
      · exact .inl rfl
      · right
        have hc : Boundary c := hbefore c (by simp)
        have hlast : tables.toUppercase (front ++ [c]) = tables.toUppercase front ++ [c] := by
          rw [toUppercase_append]
          unfold CaseTables.toUppercase
          rw [List.flatMap_singleton, upper_of_boundary hc]
        rw [List.concat_eq_append, hlast, List.append_assoc, List.append_assoc,
          List.getElem?_append_right (by simp)]
        simp [hc.1]
    · rw [List.getElem?_append_right (by simp)]
      cases after with
      | nil => simp [CaseTables.toUppercase]
      | cons c after =>
        have hc : Boundary c := hafter c (by simp)
        have hfirst : tables.toUppercase (c :: after) = c :: tables.toUppercase after := by
          unfold CaseTables.toUppercase
          rw [List.flatMap_cons, upper_of_boundary hc]
          rfl
        rw [hfirst]
        simp [hc.1]

theorem bannedKeywords_words {kw : String} (h : kw ∈ bannedKeywords) :
    kw.toList ≠ [] ∧ ∀ c ∈ kw.toList, wordByte c = true ∧ c.toNat < 128 := by
  have hall : ∀ kw ∈ bannedKeywords, kw.toList ≠ [] ∧
      (kw.toList.all fun c => wordByte c = true ∧ c.toNat < 128) = true := by
    decide +kernel
  exact (hall kw h).imp id List.all_iff_forall_prop.mp

theorem identifier_not_banned {text token : List Char} (htoken : IdentifierToken text token)
    {kw : String} (hkw : kw ∈ bannedKeywords)
    (hscan : containsKeyword (tables.toUppercase text) kw.toList = false) :
    token.map Char.toUpper ≠ kw.toList := by
  intro hup
  obtain ⟨hne, hchars⟩ := bannedKeywords_words hkw
  obtain ⟨-, -, before, after, rfl, hbefore, hafter⟩ := htoken
  have hstands := standsAt_of_word tables hup (fun c hc => (hchars c hc).2)
    (fun c hc => boundary_of_identChar (hbefore c hc))
    fun c hc => boundary_of_identChar (hafter c hc)
  have := (containsKeyword_iff hne fun c hc => (hchars c hc).1).mpr ⟨_, hstands⟩
  rw [hscan] at this
  cases this

end Words

section Accepted

variable {tables : CaseTables}

theorem check_ok {sql : List Char} (h : check tables sql = .ok ()) :
    byteLength sql ≤ maxQueryLength ∧ sql ≠ [] ∧
      tables.toUppercase ((splitWhitespace sql).headD []) = "SELECT".toList ∧
      ';' ∉ withoutEnd sql ∧
      ∀ kw ∈ bannedKeywords, containsKeyword (tables.toUppercase sql) kw.toList = false := by
  unfold check at h
  split_ifs at h with hlen hempty hselect hsemi hdollar
  refine ⟨Nat.le_of_not_lt hlen, by simpa using hempty, not_not.mp hselect, hsemi, ?_⟩
  intro kw hkw
  cases hfind : bannedKeywords.find?
      fun k => containsKeyword (tables.toUppercase sql) k.toList with
  | some keyword =>
    rw [hfind] at h
    cases h
  | none =>
    have := List.find?_eq_none.mp hfind kw hkw
    simpa using this

theorem validateSql_ok {sql pgSchema : List Char} {v : ValidatedSql}
    (h : validateSql tables sql pgSchema = .ok v) :
    check tables (trim sql) = .ok () ∧ v.original = trim sql ∧
      enforceLimit tables (qualifyTables tables pgSchema (withoutEnd (trim sql))) =
        some v.sanitised := by
  unfold validateSql at h
  dsimp only at h
  cases hcheck : check tables (trim sql) with
  | error e =>
    rw [hcheck] at h
    cases h
  | ok u =>
    rw [hcheck] at h
    dsimp only at h
    cases hlimit : enforceLimit tables (qualifyTables tables pgSchema (withoutEnd (trim sql))) with
    | none =>
      rw [hlimit] at h
      cases h
    | some sanitised =>
      rw [hlimit] at h
      cases h
      exact ⟨rfl, rfl, rfl⟩

theorem mem_tableNameOf {token name : List Char} (h : tableNameOf tables token = some name)
    {c : Char} (hc : c ∈ name) : c ∈ token := by
  unfold tableNameOf at h
  dsimp only at h
  have hraw : ∀ c ∈ trimMatches (· == '"')
      (trimMatches (fun c => c == '(' || c == ')' || c == ',') token), c ∈ token := fun c hc =>
    mem_of_mem_trimMatches (mem_of_mem_trimMatches hc)
  split_ifs at h
  split at h
  · rename_i x table hsplit
    cases h
    unfold rsplitOnce at hsplit
    split_ifs at hsplit
    cases hsplit
    exact hraw c ((List.rtakeWhile_suffix _ _).subset hc)
  · cases h
    exact hraw c hc

theorem forall_mem_collectTables {P : Char → Prop} {tokens names : List (List Char)}
    (htokens : ∀ t ∈ tokens, ∀ c ∈ t, P c) (hnames : ∀ n ∈ names, ∀ c ∈ n, P c) :
    ∀ n ∈ collectTables tables names tokens, ∀ c ∈ n, P c := by
  induction tokens generalizing names with
  | nil => exact hnames
  | cons token rest ih =>
    cases rest with
    | nil => exact hnames
    | cons next rest =>
      apply ih fun t ht => htokens t (List.mem_cons_of_mem _ ht)
      split_ifs
      · split
        · rename_i name' hname
          split_ifs
          · exact hnames
          · intro n hn
            rcases List.mem_append.mp hn with hn | hn
            · exact hnames n hn
            · rw [List.mem_singleton.mp hn]
              intro c hc
              exact htokens next (by simp) c (mem_tableNameOf hname hc)
        · exact hnames
      · exact hnames

theorem mem_extractTableNames {sql name : List Char} (h : name ∈ extractTableNames tables sql)
    {c : Char} (hc : c ∈ name) : c ∈ sql :=
  forall_mem_collectTables (fun _ ht _ hc => mem_of_mem_splitWhitespace ht hc) (by simp) name h c hc

theorem not_whitespace_of_mem_extractTableNames {sql name : List Char}
    (h : name ∈ extractTableNames tables sql) {c : Char} (hc : c ∈ name) : isWhitespace c = false :=
  forall_mem_collectTables (fun _ ht _ hc => not_whitespace_of_mem_splitWhitespace ht hc) (by simp)
    name h c hc

theorem mem_of_mem_ite_replaceAll {b : Bool} {pat new s : List Char} {c : Char}
    (h : c ∈ if b then replaceAll pat new s else s) : c ∈ s ∨ c ∈ new := by
  split_ifs at h
  · exact mem_of_mem_replaceAll h
  · exact .inl h

/-- A step of the rewriting adds the characters of the keyword, the schema and the table. -/
theorem mem_prefixAfter {table pgSchema result : List Char} {kw : String} {c : Char}
    (h : c ∈ prefixAfter table pgSchema result kw) :
    c ∈ result ∨ c ∈ pgSchema ∨ c ∈ table ∨ c ∈ kw.toList ∨ c ∈ " .\"".toList := by
  have hdot : ".\"".toList ⊆ " .\"".toList := by decide
  have hquote : "\"".toList ⊆ " .\"".toList := by decide
  have hnew : c ∈ kw.toList ++ ' ' :: (pgSchema ++ ".\"".toList ++ table ++ "\"".toList) →
      c ∈ pgSchema ∨ c ∈ table ∨ c ∈ kw.toList ∨ c ∈ " .\"".toList := by
    intro h
    rcases List.mem_append.mp h with h | h
    · exact .inr (.inr (.inl h))
    rcases List.mem_cons.mp h with rfl | h
    · exact .inr (.inr (.inr (by decide)))
    rcases List.mem_append.mp h with h | h
    · rcases List.mem_append.mp h with h | h
      · rcases List.mem_append.mp h with h | h
        · exact .inl h
        · exact .inr (.inr (.inr (hdot h)))
      · exact .inr (.inl h)
    · exact .inr (.inr (.inr (hquote h)))
  rcases mem_of_mem_ite_replaceAll h with h | h
  · exact (mem_of_mem_ite_replaceAll h).imp id hnew
  · exact .inr (hnew h)

theorem mem_addSchemaPrefix {pgSchema sql table : List Char} {c : Char}
    (h : c ∈ addSchemaPrefix pgSchema sql table) :
    c ∈ sql ∨ c ∈ pgSchema ∨ c ∈ table ∨ (∃ kw ∈ prefixKeywords, c ∈ kw.toList) ∨
      c ∈ " .\"".toList := by
  suffices hgen : ∀ kws : List String, kws ⊆ prefixKeywords → ∀ s : List Char,
      c ∈ kws.foldl (prefixAfter table pgSchema) s →
      c ∈ s ∨ c ∈ pgSchema ∨ c ∈ table ∨ (∃ kw ∈ prefixKeywords, c ∈ kw.toList) ∨
        c ∈ " .\"".toList from
    hgen prefixKeywords (List.Subset.refl _) sql h
  intro kws
  induction kws with
  | nil => exact fun _ s h => .inl h
  | cons kw kws ih =>
    intro hsub s h
    rcases ih (fun k hk => hsub (List.mem_cons_of_mem _ hk)) _ h with h | h
    · rcases mem_prefixAfter h with h | h | h | h | h
      · exact .inl h
      · exact .inr (.inl h)
      · exact .inr (.inr (.inl h))
      · exact .inr (.inr (.inr (.inl ⟨kw, hsub List.mem_cons_self, h⟩)))
      · exact .inr (.inr (.inr (.inr h)))
    · exact .inr h

/-- What holds of the characters of the query, of the schema and of what is put between them holds
of the text after step 9. -/
theorem forall_mem_qualifyTables {P : Char → Prop} {pgSchema sql : List Char}
    (hkeywords : ∀ kw ∈ prefixKeywords, ∀ c ∈ kw.toList, P c) (hmarks : ∀ c ∈ " .\"".toList, P c)
    (hschema : ∀ c ∈ pgSchema, P c) (hsql : ∀ c ∈ sql, P c) :
    ∀ c ∈ qualifyTables tables pgSchema sql, P c := by
  suffices hgen : ∀ names : List (List Char), (∀ n ∈ names, ∀ c ∈ n, P c) → ∀ s : List Char,
      (∀ c ∈ s, P c) → ∀ c ∈ names.foldl (addSchemaPrefix pgSchema) s, P c from
    hgen _ (fun n hn c hc => hsql c (mem_extractTableNames hn hc)) sql hsql
  intro names
  induction names with
  | nil => exact fun _ s hs => hs
  | cons n names ih =>
    intro hnames s hs
    apply ih fun m hm => hnames m (List.mem_cons_of_mem _ hm)
    intro c hc
    rcases mem_addSchemaPrefix hc with h | h | h | ⟨kw, hkw, h⟩ | h
    · exact hs c h
    · exact hschema c h
    · exact hnames n List.mem_cons_self c h
    · exact hkeywords kw hkw c h
    · exact hmarks c h

theorem keywords_letters : ∀ kw ∈ prefixKeywords,
    kw.toList.length = 4 ∧ ∀ c ∈ kw.toList, c.isAlpha = true := by
  have hall : ∀ kw ∈ prefixKeywords,
      kw.toList.length = 4 ∧ kw.toList.all Char.isAlpha = true := by decide +kernel
  exact fun kw hkw => (hall kw hkw).imp id List.all_eq_true.mp

theorem semicolon_qualifyTables {pgSchema sql : List Char} (hschema : ';' ∉ pgSchema)
    (hsql : ';' ∉ sql) : ';' ∉ qualifyTables tables pgSchema sql := by
  have hkeywords : ∀ kw ∈ prefixKeywords, ∀ c ∈ kw.toList, c ≠ ';' := by
    intro kw hkw c hc heq
    have halpha := (keywords_letters kw hkw).2 c hc
    rw [heq] at halpha
    exact absurd halpha (by decide)
  have hall := @forall_mem_qualifyTables tables (· ≠ ';') pgSchema sql hkeywords
    (List.all_iff_forall_prop.mp (by decide)) (fun c hc h => hschema (h ▸ hc))
    (fun c hc h => hsql (h ▸ hc))
  exact fun h => hall ';' h rfl

theorem mem_enforceLimit {sql limited : List Char} (h : enforceLimit tables sql = some limited)
    {c : Char} (hc : c ∈ limited) : c ∈ sql ∨ c ∈ " LIMIT 1000".toList := by
  unfold enforceLimit at h
  split at h
  · cases h
    exact List.mem_append.mp hc
  · obtain ⟨⟨a, b⟩, hparts, h⟩ := Option.map_eq_some_iff.mp h
    obtain ⟨rfl, -⟩ := splitAtByte_eq_some_iff.mp hparts
    dsimp only at h
    split at h
    · split_ifs at h
      · subst h
        simp only [List.mem_append] at hc
        rcases hc with ((hc | hc) | hc) | hc
        · exact .inl (List.mem_append_left _ hc)
        · exact .inl (List.mem_append_right _ ((List.takeWhile_prefix _).subset hc))
        · right
          revert hc
          simp
          tauto
        · refine .inl (List.mem_append_right _ ?_)
          exact (List.dropWhile_suffix _).subset ((List.drop_suffix _ _).subset hc)
      · subst h
        exact .inl hc
    · subst h
      exact .inl hc

/-- An accepted query is one `SELECT` without a semicolon and without a banned word. -/
theorem validateSql_sound {sql pgSchema : List Char} {v : ValidatedSql} (hschema : ';' ∉ pgSchema)
    (h : validateSql tables sql pgSchema = .ok v) :
    ';' ∉ v.sanitised ∧
      (∃ word rest, splitWhitespace v.original = word :: rest ∧
        tables.toUppercase word = "SELECT".toList) ∧
      ∀ token, IdentifierToken v.original token → ∀ kw ∈ bannedKeywords,
        token.map Char.toUpper ≠ kw.toList := by
  obtain ⟨hcheck, horiginal, hlimit⟩ := validateSql_ok h
  obtain ⟨-, -, hselect, hsemi, hscan⟩ := check_ok hcheck
  rw [horiginal]
  refine ⟨fun hc => ?_, ?_, fun token htoken kw hkw => ?_⟩
  · rcases mem_enforceLimit hlimit hc with hc | hc
    · exact semicolon_qualifyTables hschema hsemi hc
    · revert hc
      decide
  · cases hwords : splitWhitespace (trim sql) with
    | nil =>
      rw [hwords] at hselect
      revert hselect
      simp [CaseTables.toUppercase]
    | cons word rest =>
      rw [hwords] at hselect
      exact ⟨word, rest, rfl, hselect⟩
  · exact identifier_not_banned htoken hkw (hscan kw hkw)

/-- A query in two spellings of white space with a final semicolon. -/
theorem validateSql_sound_accounts :
    ∃ v, validateSql CaseTables.ascii "select a.id\nfrom accounts a limit 5000;".toList
        "public".toList = .ok v ∧ ';' ∉ v.sanitised := by
  have haccepted : (validateSql CaseTables.ascii "select a.id\nfrom accounts a limit 5000;".toList
      "public".toList).toOption.isSome = true := by decide +kernel
  cases hv : validateSql CaseTables.ascii "select a.id\nfrom accounts a limit 5000;".toList
      "public".toList with
  | error e =>
    rw [hv] at haccepted
    cases haccepted
  | ok v => exact ⟨v, rfl, (validateSql_sound (by decide) hv).1⟩

end Accepted

end Sql

end ForgeIndex
