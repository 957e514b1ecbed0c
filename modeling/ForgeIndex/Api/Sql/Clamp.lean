import ForgeIndex.Api.Sql.Panics

/-!
# The number behind `LIMIT`

`enforce_limit` on texts of ASCII characters: it appends a clause or replaces one number, and doing
it once more changes nothing.
-/

namespace ForgeIndex

open Text

namespace Sql

/-- The word `LIMIT` in some spelling, with no letter, digit or underscore next to it. -/
structure LimitWord (before word behind : List Char) : Prop where
  spelling : word.map Char.toUpper = "LIMIT".toList
  before : ∀ c ∈ before.getLast?, wordByte c = false
  behind : ∀ c ∈ behind.head?, wordByte c = false

/-- The text has such a word. -/
def HasLimit (q : List Char) : Prop :=
  ∃ before word behind, q = before ++ (word ++ behind) ∧ LimitWord before word behind

/-- The text with a number behind its first word `LIMIT`. -/
structure LimitNumber (q before word gap token behind : List Char) : Prop where
  text : q = before ++ (word ++ (gap ++ (token ++ behind)))
  limit : LimitWord before word (gap ++ (token ++ behind))
  first : ∀ b w r, q = b ++ (w ++ r) → LimitWord b w r → before.length ≤ b.length
  gap_ne : gap ≠ []
  gap_white : ∀ c ∈ gap, isWhitespace c = true
  token_ne : token ≠ []
  digits : ∀ c ∈ token, c.isDigit = true
  delimited : ∀ c ∈ behind.head?, isWhitespace c = true

/-- The number that the digits denote. -/
def number (token : List Char) : ℕ := Nat.ofDigitChars 10 token 0

theorem wordByte_toUpper {c : Char} (h : c.toNat < 128) : wordByte c.toUpper = wordByte c :=
  AsciiCase.of_forall_lt (P := fun c => wordByte c.toUpper = wordByte c) (by decide +kernel) h

section Words

variable {tables : CaseTables} {q : List Char} (hq : ∀ c ∈ q, c.toNat < 128)

include hq

theorem standsAt_of_limitWord {before word behind : List Char}
    (htext : q = before ++ (word ++ behind)) (h : LimitWord before word behind) :
    StandsAt (tables.toUppercase q) "LIMIT".toList before.length := by
  have hbefore : ∀ c ∈ before, c.toNat < 128 := fun c hc => hq c (by simp [htext, hc])
  have hbehind : ∀ c ∈ behind, c.toNat < 128 := fun c hc => hq c (by simp [htext, hc])
  have hstands : StandsAt (tables.toUppercase (before ++ word ++ behind)) "LIMIT".toList
      (tables.toUppercase before).length :=
    standsAt_of_word tables h.spelling limit_ascii
      (fun c hc => ⟨h.before c hc, hbefore c (List.mem_of_getLast? hc)⟩)
      fun c hc => ⟨h.behind c hc, hbehind c (List.mem_of_head? hc)⟩
  rw [toUppercase_of_ascii hbefore, List.length_map, List.append_assoc, ← htext] at hstands
  exact hstands

theorem exists_limitWord {i : ℕ} (h : StandsAt (tables.toUppercase q) "LIMIT".toList i) :
    ∃ before word behind, q = before ++ (word ++ behind) ∧ LimitWord before word behind ∧
      before.length = i := by
  rw [toUppercase_of_ascii hq] at h
  obtain ⟨⟨rest, hrest⟩, halone⟩ := h
  have hlength := congrArg List.length hrest
  rw [List.length_append, List.length_drop, List.length_map] at hlength
  have hfive : "LIMIT".toList.length = 5 := rfl
  unfold standsAlone at halone
  rw [Bool.and_eq_true, Bool.or_eq_true, hfive] at halone
  -- a character of the copy next to the word is one of the text
  have hnext {n : ℕ} (hall : (((q.map Char.toUpper)[n]?).all fun c => !wordByte c) = true) :
      ∀ c ∈ q[n]?, wordByte c = false := by
    intro c hc
    rw [List.getElem?_map, Option.mem_def.mp hc] at hall
    have hword : wordByte c.toUpper = false := by simpa using hall
    rw [wordByte_toUpper (hq c (List.mem_of_getElem? hc))] at hword
    exact hword
  refine ⟨q.take i, (q.drop i).take 5, q.drop (i + 5), ?_, ⟨?_, ?_, ?_⟩, ?_⟩
  · rw [← List.drop_drop, List.take_append_drop, List.take_append_drop]
  · rw [List.map_take, List.map_drop, ← hrest]
    rfl
  · intro c hc
    rcases halone.1 with hzero | hbefore
    · rw [beq_iff_eq.mp hzero] at hc
      cases hc
    · by_cases hzero : i = 0
      · rw [hzero] at hc
        cases hc
      · apply hnext hbefore c
        rw [List.getLast?_eq_getElem?, List.length_take, Nat.min_eq_left (by omega),
          List.getElem?_take_of_lt (by omega)] at hc
        exact hc
  · intro c hc
    rw [List.head?_drop] at hc
    exact hnext halone.2 c hc
  · rw [List.length_take]
    omega

end Words

theorem not_whitespace_of_isDigit {c : Char} (h : c.isDigit = true) : isWhitespace c = false := by
  rw [Bool.eq_false_iff]
  intro hwhite
  have hword := wordByte_of_isWhitespace hwhite
  unfold wordByte Char.isAlphanum at hword
  rw [h, Bool.or_true, Bool.true_or] at hword
  cases hword

theorem parseU64_of_digits {token : List Char} (hne : token ≠ [])
    (hdigits : ∀ c ∈ token, c.isDigit = true) (hlt : number token < 2 ^ 64) :
    parseU64 token = some (number token) := by
  have hall : token.all Char.isDigit = true := List.all_eq_true.mpr hdigits
  have hempty : token.isEmpty = false := by simpa using hne
  have hfold : token.foldl (fun n c => n * 10 + (c.toNat - '0'.toNat)) 0 = number token := by
    unfold number
    rw [Nat.ofDigitChars_eq_foldl]
    congr 1
    funext n c
    omega
  unfold parseU64
  rw [hall, hempty, hfold]
  exact if_pos hlt

theorem trimMatches_digits {token : List Char} (hdigits : ∀ c ∈ token, c.isDigit = true) :
    trimMatches (fun c => !c.isDigit) token = token := by
  have hdrop : token.dropWhile (fun c => !c.isDigit) = token := by
    cases token with
    | nil => rfl
    | cons c cs =>
      apply List.dropWhile_cons_of_neg
      rw [hdigits c List.mem_cons_self]
      decide
  unfold trimMatches
  rw [hdrop, List.rdropWhile_eq_self_iff]
  intro hne
  rw [hdigits _ (List.getLast_mem hne)]
  decide

theorem head?_splitWhitespace_digits {token behind : List Char} (hne : token ≠ [])
    (hdigits : ∀ c ∈ token, c.isDigit = true)
    (hbehind : ∀ c ∈ behind.head?, isWhitespace c = true) :
    (splitWhitespace (token ++ behind)).head? = some token := by
  have htake : (token ++ behind).takeWhile (fun c => !isWhitespace c) = token := by
    rw [List.takeWhile_append_of_pos fun c hc => by rw [not_whitespace_of_isDigit (hdigits c hc)]; rfl]
    cases behind with
    | nil => simp
    | cons d ds =>
      rw [List.takeWhile_cons_of_neg (by rw [hbehind d rfl]; decide), List.append_nil]
  have hhead := head?_splitOnP isWhitespace (token ++ behind)
  rw [htake] at hhead
  obtain ⟨words, hwords⟩ := List.head?_eq_some_iff.mp hhead
  unfold splitWhitespace
  rw [hwords, List.filter_cons_of_pos (by simpa using hne)]
  rfl

theorem trimStart_gap {gap token : List Char} (hgap : ∀ c ∈ gap, isWhitespace c = true)
    (hne : token ≠ []) (hdigits : ∀ c ∈ token, c.isDigit = true) (behind : List Char) :
    trimStart (gap ++ (token ++ behind)) = token ++ behind ∧
      (gap ++ (token ++ behind)).takeWhile isWhitespace = gap := by
  obtain ⟨c, cs, rfl⟩ := List.exists_cons_of_ne_nil hne
  have hc : ¬isWhitespace c = true := by
    rw [not_whitespace_of_isDigit (hdigits c List.mem_cons_self)]
    decide
  unfold trimStart
  rw [List.dropWhile_append_of_pos hgap, List.takeWhile_append_of_pos hgap, List.cons_append,
    List.dropWhile_cons_of_neg hc, List.takeWhile_cons_of_neg hc, List.append_nil]
  exact ⟨rfl, rfl⟩

theorem limitArgument_digits {token behind : List Char} (hne : token ≠ [])
    (hdigits : ∀ c ∈ token, c.isDigit = true)
    (hbehind : ∀ c ∈ behind.head?, isWhitespace c = true) (hlt : number token < 2 ^ 64) :
    limitArgument (token ++ behind) = some (number token, token.length) := by
  unfold limitArgument
  rw [head?_splitWhitespace_digits hne hdigits hbehind, Option.bind_some,
    trimMatches_digits hdigits, parseU64_of_digits hne hdigits hlt]
  rfl

section Cases

variable {tables : CaseTables} {q : List Char} (hq : ∀ c ∈ q, c.toNat < 128)

include hq

theorem enforceLimit_without (h : ¬HasLimit q) :
    enforceLimitBytes tables q = some (q ++ " LIMIT 1000".toList) := by
  have hnone : keywordIndex (tables.toUppercase q) "LIMIT".toList = none := by
    have hspec := limit_spec (tables.toUppercase q)
    cases hindex : keywordIndex (tables.toUppercase q) "LIMIT".toList with
    | none => rfl
    | some i =>
      rw [hindex] at hspec
      obtain ⟨before, word, behind, htext, hword, -⟩ := exists_limitWord hq hspec.1
      exact absurd ⟨before, word, behind, htext, hword⟩ h
  rw [enforceLimitBytes_eq]
  unfold enforceLimit findKeywordPos
  rw [hnone]
  rfl

theorem LimitNumber.keywordIndex {before word gap token behind : List Char}
    (h : LimitNumber q before word gap token behind) :
    keywordIndex (tables.toUppercase q) "LIMIT".toList = some before.length := by
  apply keywordIndex_eq (by decide) (List.all_eq_true.mp (by decide))
  · exact standsAt_of_limitWord hq h.text h.limit
  · intro j hj hstands
    obtain ⟨b, w, r, htext, hword, hlength⟩ := exists_limitWord hq hstands
    have hle := h.first b w r htext hword
    omega

theorem LimitNumber.position {before word gap token behind : List Char}
    (h : LimitNumber q before word gap token behind) :
    byteLength ((tables.toUppercase q).take before.length) + 5 = byteLength (before ++ word) := by
  have hascii : ∀ c ∈ before ++ word, c.toNat < 128 := by
    intro c hc
    apply hq c
    rw [h.text, ← List.append_assoc]
    exact List.mem_append_left _ hc
  have hfive : word.length = 5 := by
    have hlength := congrArg List.length h.limit.spelling
    rw [List.length_map] at hlength
    exact hlength
  have hcopy : ∀ c ∈ (tables.toUppercase q).take before.length, c.toNat < 128 := by
    intro c hc
    rw [toUppercase_of_ascii hq] at hc
    obtain ⟨d, hd, rfl⟩ := List.mem_map.mp (List.mem_of_mem_take hc)
    exact AsciiCase.toUpper_lt (hq d hd)
  have hlength : ((tables.toUppercase q).take before.length).length = before.length := by
    rw [toUppercase_of_ascii hq, List.length_take, List.length_map, h.text, List.length_append]
    omega
  rw [byteLength_of_ascii hcopy, byteLength_of_ascii hascii, hlength, List.length_append, hfive]

theorem enforceLimit_number {before word gap token behind : List Char}
    (h : LimitNumber q before word gap token behind) (hlt : number token < 2 ^ 64) :
    enforceLimitBytes tables q = some (if number token ≤ 1000 then q
      else before ++ (word ++ (gap ++ ("1000".toList ++ behind)))) := by
  have hparts : splitAtByte (byteLength (before ++ word)) q =
      some (before ++ word, gap ++ (token ++ behind)) := by
    apply splitAtByte_eq_some_iff.mpr
    refine ⟨?_, rfl⟩
    rw [h.text, List.append_assoc]
  obtain ⟨htrim, hgap⟩ := trimStart_gap h.gap_white h.token_ne h.digits behind
  rw [enforceLimitBytes_eq]
  unfold enforceLimit findKeywordPos
  rw [h.keywordIndex hq, Option.map_some]
  dsimp only
  rw [h.position hq, hparts, Option.map_some]
  dsimp only
  rw [htrim, limitArgument_digits h.token_ne h.digits h.delimited hlt, hgap]
  dsimp only
  have hmax : maxLimit < number token ↔ ¬number token ≤ 1000 := Nat.not_le.symm
  by_cases hsmall : number token ≤ 1000
  · rw [if_neg (by rw [hmax]; exact not_not.mpr hsmall), if_pos hsmall]
  · rw [if_pos (hmax.mpr hsmall), if_neg hsmall, List.drop_left]
    simp only [List.append_assoc]

theorem enforceLimit_thousand {before word gap behind : List Char}
    (h : LimitNumber q before word gap "1000".toList behind) :
    enforceLimitBytes tables q = some q := by
  have hthousand : number "1000".toList = 1000 := by decide
  have hread := @enforceLimit_number tables q hq _ _ _ _ _ h (by rw [hthousand]; omega)
  rw [if_pos (by rw [hthousand])] at hread
  exact hread

end Cases

theorem LimitWord.letters {before word behind : List Char} (h : LimitWord before word behind) :
    ∀ c ∈ word, wordByte c = true := by
  intro c hc
  have hmem : c.toUpper ∈ "LIMIT".toList := h.spelling ▸ List.mem_map_of_mem hc
  have hascii : c.toNat < 128 := ascii_of_toUpper (limit_ascii c.toUpper hmem)
  rw [← wordByte_toUpper hascii]
  exact List.all_eq_true.mp (by decide : "LIMIT".toList.all wordByte = true) c.toUpper hmem

/-- An earlier word ends before the later one begins, with something between them. -/
theorem LimitWord.apart {before b w r s : List Char}
    (hbefore : ∀ c ∈ before.getLast?, wordByte c = false) (hw : LimitWord b w r)
    (htext : before ++ s = b ++ (w ++ r)) (hlt : b.length < before.length) :
    ∃ m, m ≠ [] ∧ before = b ++ (w ++ m) ∧ r = m ++ s := by
  have hletter {l : List Char} (hne : l ≠ []) (hl : ∀ c ∈ l, c ∈ w) : before ≠ b ++ l := by
    intro heq
    have hlast : l.getLast hne ∈ before.getLast? := by
      rw [heq, List.getLast?_append_of_ne_nil b hne, List.getLast?_eq_some_getLast hne]
      rfl
    have hword := hw.letters _ (hl _ (List.getLast_mem hne))
    rw [hbefore _ hlast] at hword
    cases hword
  rcases List.append_eq_append_iff.mp htext with ⟨l, hb, -⟩ | ⟨l, hl, hrest⟩
  · rw [hb, List.length_append] at hlt
    omega
  · rcases List.append_eq_append_iff.mp hrest with ⟨m, hm, hr⟩ | ⟨m, hm, hr⟩
    · refine ⟨m, ?_, by rw [hl, hm], hr⟩
      intro hnil
      apply hletter (l := w) _ (fun c hc => hc) (by rw [hl, hm, hnil, List.append_nil])
      intro hwnil
      have hspelling := hw.spelling
      rw [hwnil] at hspelling
      cases hspelling
    · have hne : l ≠ [] := by
        intro hnil
        rw [hl, hnil, List.append_nil] at hlt
        omega
      exact absurd hl (hletter hne fun c hc => by rw [hm]; exact List.mem_append_left _ hc)

theorem LimitNumber.clamped {q before word gap token behind : List Char}
    (h : LimitNumber q before word gap token behind) :
    LimitNumber (before ++ (word ++ (gap ++ ("1000".toList ++ behind)))) before word gap
      "1000".toList behind := by
  obtain ⟨g, gs, hgap⟩ := List.exists_cons_of_ne_nil h.gap_ne
  refine ⟨rfl, ⟨h.limit.spelling, h.limit.before, ?_⟩, ?_, h.gap_ne, h.gap_white, by decide,
    List.all_eq_true.mp (by decide), h.delimited⟩
  · have hbehind := h.limit.behind
    rw [hgap, List.cons_append] at hbehind ⊢
    exact hbehind
  · intro b w r htext hw
    by_contra hlt
    obtain ⟨m, hm, hsplit, hr⟩ :=
      hw.apart h.limit.before htext (Nat.not_le.mp hlt)
    obtain ⟨x, xs, rfl⟩ := List.exists_cons_of_ne_nil hm
    have hbehind := hw.behind
    rw [hr, List.cons_append] at hbehind
    apply hlt
    apply h.first b w (x :: xs ++ (word ++ (gap ++ (token ++ behind)))) _
      ⟨hw.spelling, hw.before, hbehind⟩
    rw [h.text, hsplit, List.append_assoc, List.append_assoc]

theorem LimitNumber.clamped_ascii {q before word gap token behind : List Char}
    (h : LimitNumber q before word gap token behind) (hq : ∀ c ∈ q, c.toNat < 128) :
    ∀ c ∈ before ++ (word ++ (gap ++ ("1000".toList ++ behind))), c.toNat < 128 := by
  intro c hc
  have hc' := hq c
  rw [h.text] at hc'
  simp only [List.mem_append] at hc hc'
  rcases hc with hc | hc | hc | hc | hc
  · exact hc' (Or.inl hc)
  · exact hc' (Or.inr (Or.inl hc))
  · exact hc' (Or.inr (Or.inr (Or.inl hc)))
  · exact List.all_iff_forall_prop.mp
      (by decide : ("1000".toList.all fun c => decide (c.toNat < 128)) = true) c hc
  · exact hc' (Or.inr (Or.inr (Or.inr (Or.inr hc))))

theorem limitNumber_append {q : List Char} (h : ¬HasLimit q) :
    LimitNumber (q ++ " LIMIT 1000".toList) (q ++ [' ']) "LIMIT".toList [' '] "1000".toList [] := by
  have hlast : ∀ c ∈ (q ++ [' ']).getLast?, wordByte c = false := by
    intro c hc
    rw [List.getLast?_append_of_ne_nil q (List.cons_ne_nil _ _)] at hc
    rw [← Option.some.inj hc]
    decide
  have htext : q ++ " LIMIT 1000".toList =
      (q ++ [' ']) ++ ("LIMIT".toList ++ ([' '] ++ ("1000".toList ++ []))) := by
    rw [List.append_assoc]
    rfl
  refine ⟨htext, ⟨by decide, hlast, ?_⟩, ?_, List.cons_ne_nil _ _, List.all_eq_true.mp (by decide),
    by decide, List.all_eq_true.mp (by decide), fun c hc => by cases hc⟩
  · intro c hc
    rw [← Option.some.inj hc]
    decide
  · intro b w r hsplit hw
    by_contra hlt
    rw [htext] at hsplit
    obtain ⟨m, hm, hsplit, hr⟩ := hw.apart hlast hsplit (Nat.not_le.mp hlt)
    -- what stands between the words ends with the space
    obtain ⟨m, x, rfl⟩ := (List.eq_nil_or_concat' m).resolve_left hm
    rw [← List.append_assoc, ← List.append_assoc] at hsplit
    have hq := (List.append_inj' hsplit rfl).1
    rw [List.append_assoc] at hq
    refine h ⟨b, w, m, hq, hw.spelling, hw.before, ?_⟩
    intro c hc
    apply hw.behind c
    rw [hr, List.append_assoc]
    cases m with
    | nil => cases hc
    | cons y ys => exact hc

/-- On a text of ASCII characters `enforce_limit` appends a clause when there is none, leaves a
number up to the maximum as it is, and puts the maximum in the place of a greater one; what it
returns it returns again. -/
theorem enforceLimit_clamps (tables : CaseTables) (q : List Char)
    (hq : ∀ c ∈ q, c.toNat < 128) :
    (¬HasLimit q →
      enforceLimitBytes tables q = some (q ++ " LIMIT 1000".toList) ∧
      (enforceLimitBytes tables q).bind (enforceLimitBytes tables) =
        enforceLimitBytes tables q) ∧
    ∀ before word gap token behind, LimitNumber q before word gap token behind →
      number token < 2 ^ 64 →
      enforceLimitBytes tables q = some (if number token ≤ 1000 then q
        else before ++ (word ++ (gap ++ ("1000".toList ++ behind)))) ∧
      (enforceLimitBytes tables q).bind (enforceLimitBytes tables) =
        enforceLimitBytes tables q := by
  constructor
  · intro h
    have hascii : ∀ c ∈ q ++ " LIMIT 1000".toList, c.toNat < 128 := by
      intro c hc
      rcases List.mem_append.mp hc with hc | hc
      · exact hq c hc
      · exact List.all_iff_forall_prop.mp
          (by decide : (" LIMIT 1000".toList.all fun c => decide (c.toNat < 128)) = true) c hc
    rw [enforceLimit_without hq h, Option.bind_some]
    exact ⟨rfl, enforceLimit_thousand hascii (limitNumber_append h)⟩
  · intro before word gap token behind h hlt
    have honce := @enforceLimit_number tables q hq _ _ _ _ _ h hlt
    refine ⟨honce, ?_⟩
    by_cases hsmall : number token ≤ 1000
    · rw [if_pos hsmall] at honce
      rw [honce, Option.bind_some, honce]
    · rw [if_neg hsmall] at honce
      rw [honce, Option.bind_some, enforceLimit_thousand (h.clamped_ascii hq) h.clamped]

/-- A query without the word, and one with a great number between white space. -/
theorem enforceLimit_clamps_tab :
    enforceLimitBytes CaseTables.ascii "SELECT 1".toList =
        some ("SELECT 1".toList ++ " LIMIT 1000".toList) ∧
    enforceLimitBytes CaseTables.ascii "x limit \t5000\nOFFSET 1".toList =
      some "x limit \t1000\nOFFSET 1".toList ∧
    (enforceLimitBytes CaseTables.ascii "x limit \t5000\nOFFSET 1".toList).bind
        (enforceLimitBytes CaseTables.ascii) =
      enforceLimitBytes CaseTables.ascii "x limit \t5000\nOFFSET 1".toList := by
  have hwithout : ¬HasLimit "SELECT 1".toList := by
    intro ⟨b, w, r, htext, hw⟩
    have hinfix : "LIMIT".toList <:+: "SELECT 1".toList.map Char.toUpper := by
      refine ⟨b.map Char.toUpper, r.map Char.toUpper, ?_⟩
      rw [htext, List.map_append, List.map_append, hw.spelling, List.append_assoc]
    have hcontains := contains_iff.mpr hinfix
    revert hcontains
    decide
  have hlimit : LimitWord "x ".toList "limit".toList (" \t".toList ++ ("5000".toList ++
      "\nOFFSET 1".toList)) := by
    refine ⟨by decide, ?_, ?_⟩
    · intro c hc
      rw [← Option.some.inj hc]
      decide
    · intro c hc
      rw [← Option.some.inj hc]
      decide
  have hnumber : LimitNumber "x limit \t5000\nOFFSET 1".toList "x ".toList "limit".toList
      " \t".toList "5000".toList "\nOFFSET 1".toList := by
    refine ⟨by decide, hlimit, ?_, by decide, List.all_eq_true.mp (by decide), by decide,
      List.all_eq_true.mp (by decide), ?_⟩
    · intro b w r htext hw
      by_contra hlt
      obtain ⟨m, -, hsplit, -⟩ := hw.apart hlimit.before htext (Nat.not_le.mp hlt)
      have hspelling := congrArg List.length hw.spelling
      have hlength := congrArg List.length hsplit
      simp only [List.length_map, List.length_append] at hspelling hlength
      have htwo : "x ".toList.length = 2 := rfl
      have hfive : "LIMIT".toList.length = 5 := rfl
      omega
    · intro c hc
      rw [← Option.some.inj hc]
      decide
  have hboth := enforceLimit_clamps CaseTables.ascii "SELECT 1".toList
    (List.all_iff_forall_prop.mp (by decide))
  have hclamped := (enforceLimit_clamps CaseTables.ascii "x limit \t5000\nOFFSET 1".toList
    (List.all_iff_forall_prop.mp (by decide))).2 _ _ _ _ _ hnumber (by decide)
  exact ⟨(hboth.1 hwithout).1, hclamped⟩

end Sql

end ForgeIndex
