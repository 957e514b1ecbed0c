import ForgeIndex.Api.Sql.Limit
import ForgeIndex.Lib.ByteSlices

/-!
# The slices of the validator

`validate_sql` with its positions in bytes, as the source has them: a slice that is out of range or
off a character boundary, or a byte that is not there, ends the call.  All of them are in place but
the one behind the word `LIMIT`, whose position comes from the upper-cased copy.
-/

namespace ForgeIndex

open Text

namespace Sql

/-- `is_ascii_alphanumeric`, or an underscore. -/
def isWordByte (b : UInt8) : Bool :=
  let n := b.toNat
  (48 ≤ n && n ≤ 57) || (65 ≤ n && n ≤ 90) || (97 ≤ n && n ≤ 122) || n == 95

def beforeOk (upperSql : List Char) (absPos : ℕ) : Option Bool :=
  if absPos = 0 then some true else (byteAt upperSql (absPos - 1)).map fun b => !isWordByte b

def afterOk (upperSql : List Char) (afterPos : ℕ) : Option Bool :=
  if byteLength upperSql ≤ afterPos then some true
  else (byteAt upperSql afterPos).map fun b => !isWordByte b

def aloneAt (upperSql keyword : List Char) (absPos : ℕ) : Option Bool :=
  (beforeOk upperSql absPos).bind fun before =>
    (afterOk upperSql (absPos + byteLength keyword)).map fun after => before && after

/-- The loop of `contains_keyword` and `find_keyword_pos` from a start position. -/
def scanBytes (upperSql keyword : List Char) : ℕ → ℕ → Option (Option ℕ)
  | 0, _ => some none
  | fuel + 1, start =>
    (sliceFrom start upperSql).bind fun rest =>
      match findByte keyword rest with
      | none => some none
      | some pos => (aloneAt upperSql keyword (start + pos)).bind fun alone =>
        if alone then some (some (start + pos))
        else scanBytes upperSql keyword fuel (start + pos + byteLength keyword)

/-- `find_keyword_pos`; `contains_keyword` asks whether there is a position. -/
def findKeywordPosBytes (upperSql keyword : List Char) : Option (Option ℕ) :=
  scanBytes upperSql keyword (upperSql.length + 1) 0

/-- The loop over `BANNED_KEYWORDS`. -/
def firstBanned (upperSql : List Char) : List String → Option (Option String)
  | [] => some none
  | keyword :: keywords => (findKeywordPosBytes upperSql keyword.toList).bind fun found =>
    if found.isSome then some (some keyword) else firstBanned upperSql keywords

/-- The difference of two lengths. -/
def usizeSub (a b : ℕ) : Option ℕ := if b ≤ a then some (a - b) else none

section Bytes

variable (tables : CaseTables)

/-- `enforce_limit`. -/
def enforceLimitBytes (sql : List Char) : Option (List Char) :=
  (findKeywordPosBytes (tables.toUppercase sql) "LIMIT".toList).bind fun
    | none => some (sql ++ " LIMIT 1000".toList)
    | some limitPos =>
      (sliceFrom (limitPos + 5) sql).bind fun behindLimit =>
        let afterLimit := trimStart behindLimit
        match (splitWhitespace afterLimit).head? with
        | none => some sql
        | some numStr =>
          match parseU64 (trimMatches (fun c => !c.isDigit) numStr) with
          | none => some sql
          | some n =>
            if maxLimit < n then do
              let upTo ← usizeSub (byteLength sql) (byteLength behindLimit)
              let numStart := upTo + (byteLength behindLimit - byteLength afterLimit)
              let numEnd := numStart + byteLength numStr
              let front ← sliceTo numStart sql
              let behind ← sliceFrom numEnd sql
              return front ++ "1000".toList ++ behind
            else some sql

/-- Steps 1 to 7. -/
def checkBytes (sql : List Char) : Option (Except SqlError Unit) :=
  if maxQueryLength < byteLength sql then
    some (.error (.tooLong (byteLength sql) maxQueryLength))
  else if sql.isEmpty then some (.error (.invalidStatement "Empty query"))
  else if tables.toUppercase ((splitWhitespace sql).headD []) ≠ "SELECT".toList then
    some (.error (.invalidStatement "Only SELECT statements are allowed"))
  else if ';' ∈ withoutEnd sql then
    some (.error (.invalidStatement "Multiple statements are not allowed"))
  else if contains "$$".toList sql || contains "$tag$".toList sql then
    some (.error (.invalidStatement "Dollar-sign quoting is not allowed"))
  else
    (firstBanned (tables.toUppercase sql) bannedKeywords).map fun
      | some keyword => .error (.forbiddenKeyword keyword)
      | none =>
        match bannedSchemas.find? fun s => contains s.toList (tables.lower sql) with
        | some schema => .error (.forbiddenKeyword ("Access to " ++ schema ++ " is not allowed"))
        | none => .ok ()

/-- `validate_sql`; nothing if the call panics. -/
def validateSqlBytes (sql pgSchema : List Char) : Option (Except SqlError ValidatedSql) :=
  let sql := trim sql
  (checkBytes tables sql).bind fun
    | .error e => some (.error e)
    | .ok () =>
      (enforceLimitBytes tables (qualifyTables tables pgSchema (withoutEnd sql))).map fun
        sanitised => .ok
          { original := sql
            sanitised := sanitised
            tableNames := extractTableNames tables (withoutEnd sql) }

end Bytes

theorem isWordByte_of_mem {c : Char} {b : UInt8} (h : b ∈ String.utf8EncodeChar c) :
    isWordByte b = wordByte c := by
  by_cases hc : c.toNat < 128
  · have hall : ∀ n < 128, isWordByte (UInt8.ofNat n) = wordByte (Char.ofNat n) := by
      decide +kernel
    rw [utf8EncodeChar_ascii hc] at h
    rw [List.mem_singleton.mp h, hall c.toNat hc, Char.ofNat_toNat]
  · have hb := le_of_mem_utf8EncodeChar (Nat.not_lt.mp hc) h
    have hword : wordByte c = false := by
      rw [Bool.eq_false_iff]
      exact fun hword => hc (lt_of_wordByte hword)
    rw [hword]
    unfold isWordByte
    simp only [Bool.or_eq_false_iff, Bool.and_eq_false_iff, decide_eq_false_iff_not,
      beq_eq_false_iff_ne]
    omega

theorem beforeOk_eq (a b : List Char) :
    beforeOk (a ++ b) (byteLength a) =
      some (a.length == 0 || ((a ++ b)[a.length - 1]?).all fun c => !wordByte c) := by
  unfold beforeOk
  rcases List.eq_nil_or_concat' a with rfl | ⟨a, c, rfl⟩
  · rfl
  · have hsplit : a ++ [c] ++ b = a ++ c :: b := by simp
    obtain ⟨byte, hmem, hbyte⟩ := byteAt_last a b c
    have hpos : byteLength (a ++ [c]) ≠ 0 := by
      have hc := c.utf8Size_pos
      rw [byteLength_append]
      unfold byteLength
      simp only [List.map_cons, List.map_nil, List.sum_cons, List.sum_nil]
      omega
    have hchar : (a ++ c :: b)[(a ++ [c]).length - 1]? = some c := by simp
    have hlength : ((a ++ [c]).length == 0) = false := by simp
    rw [if_neg hpos, hsplit, hbyte, hchar, hlength, Option.map_some, isWordByte_of_mem hmem]
    rfl

theorem afterOk_eq (a b : List Char) :
    afterOk (a ++ b) (byteLength a) = some (((a ++ b)[a.length]?).all fun c => !wordByte c) := by
  unfold afterOk
  rw [byteLength_append]
  cases b with
  | nil =>
    rw [if_pos (by exact Nat.le_refl _), List.append_nil, List.getElem?_eq_none (Nat.le_refl _)]
    rfl
  | cons c b =>
    obtain ⟨byte, hmem, hbyte⟩ := byteAt_first a b c
    have hpos : ¬byteLength a + byteLength (c :: b) ≤ byteLength a := by
      have hc := c.utf8Size_pos
      unfold byteLength
      rw [List.map_cons, List.sum_cons]
      omega
    have hchar : (a ++ c :: b)[a.length]? = some c := by simp
    rw [if_neg hpos, hbyte, hchar, Option.map_some, isWordByte_of_mem hmem]
    rfl

/-- The bytes around an occurrence are there, and they tell what the characters tell. -/
theorem aloneAt_eq (a k b : List Char) :
    aloneAt (a ++ (k ++ b)) k (byteLength a) = some (standsAlone (a ++ (k ++ b)) k a.length) := by
  have hafter := afterOk_eq (a ++ k) b
  rw [List.append_assoc, byteLength_append, List.length_append] at hafter
  unfold aloneAt standsAlone
  rw [beforeOk_eq, hafter]
  rfl

/-- Each slice of the loop starts at a character, and the loop finds what it finds in characters. -/
theorem scanBytes_eq (k : List Char) (fuel : ℕ) (a b : List Char) :
    scanBytes (a ++ b) k fuel (byteLength a) =
      some ((scanKeyword (a ++ b) k fuel a.length).map fun i => byteLength ((a ++ b).take i)) := by
  induction fuel generalizing a b with
  | zero => rfl
  | succ fuel ih =>
    rw [scanBytes, scanKeyword, sliceFrom_append, Option.bind_some, List.drop_left]
    unfold findByte
    cases hfind : find k b with
    | none => rfl
    | some pos =>
      have hle := (find_eq_some_iff.mp hfind).2.1
      have hsplit : a ++ b = (a ++ b.take pos) ++ (k ++ b.drop (pos + k.length)) := by
        rw [List.append_assoc, ← find_split hfind]
      have hbytes : byteLength a + byteLength (b.take pos) = byteLength (a ++ b.take pos) :=
        (byteLength_append _ _).symm
      have hindex : a.length + pos = (a ++ b.take pos).length := by
        rw [List.length_append, List.length_take, Nat.min_eq_left hle]
      rw [Option.map_some]
      dsimp only
      rw [hbytes, hindex, hsplit, aloneAt_eq, Option.bind_some]
      split_ifs
      · rw [Option.map_some, List.take_left]
      · have hrest := ih (a ++ b.take pos ++ k) (b.drop (pos + k.length))
        have hlength : (a ++ b.take pos ++ k).length = (a ++ b.take pos).length + k.length :=
          List.length_append
        rw [List.append_assoc (a ++ b.take pos), byteLength_append (a ++ b.take pos), hlength]
          at hrest
        exact hrest

theorem findKeywordPosBytes_eq (u k : List Char) :
    findKeywordPosBytes u k = some (findKeywordPos u k) := scanBytes_eq k (u.length + 1) [] u

theorem firstBanned_eq (u : List Char) (keywords : List String) :
    firstBanned u keywords = some (keywords.find? fun k => containsKeyword u k.toList) := by
  induction keywords with
  | nil => rfl
  | cons keyword keywords ih =>
    have hfound : (findKeywordPos u keyword.toList).isSome = containsKeyword u keyword.toList := by
      unfold findKeywordPos containsKeyword
      rw [Option.isSome_map]
    rw [firstBanned, findKeywordPosBytes_eq, Option.bind_some, hfound, ih, List.find?_cons]
    cases containsKeyword u keyword.toList <;> rfl

theorem number_split {tail numStr : List Char}
    (h : (splitWhitespace (trimStart tail)).head? = some numStr) :
    tail = tail.takeWhile isWhitespace ++ (numStr ++ (trimStart tail).drop numStr.length) := by
  have hstart : ∀ c ∈ (trimStart tail).head?, isWhitespace c = false := by
    intro c hc
    have hnot := List.head?_dropWhile_not isWhitespace tail
    unfold trimStart at hc
    rw [Option.mem_def.mp hc] at hnot
    simpa using hnot
  have hword := head?_splitWhitespace hstart h
  have hrest : numStr ++ (trimStart tail).drop numStr.length = trimStart tail := by
    have hprefix : numStr <+: trimStart tail := hword ▸ List.takeWhile_prefix _
    obtain ⟨rest, hrest⟩ := hprefix
    rw [← hrest, List.drop_left]
  rw [hrest]
  exact (List.takeWhile_append_dropWhile).symm

theorem number_slices {front tail numStr : List Char}
    (h : (splitWhitespace (trimStart tail)).head? = some numStr) :
    usizeSub (byteLength (front ++ tail)) (byteLength tail) = some (byteLength front) ∧
      sliceTo (byteLength front + (byteLength tail - byteLength (trimStart tail))) (front ++ tail) =
        some (front ++ tail.takeWhile isWhitespace) ∧
      sliceFrom (byteLength front + (byteLength tail - byteLength (trimStart tail)) +
          byteLength numStr) (front ++ tail) = some ((trimStart tail).drop numStr.length) := by
  have hspace : byteLength tail - byteLength (trimStart tail) =
      byteLength (tail.takeWhile isWhitespace) := by
    have htail : byteLength tail =
        byteLength (tail.takeWhile isWhitespace) + byteLength (trimStart tail) := by
      rw [← byteLength_append]
      exact congrArg byteLength List.takeWhile_append_dropWhile.symm
    omega
  have hsplit := number_split h
  have hto : front ++ tail = (front ++ tail.takeWhile isWhitespace) ++
      (numStr ++ (trimStart tail).drop numStr.length) := by
    rw [List.append_assoc, ← hsplit]
  have hfrom : front ++ tail = (front ++ tail.takeWhile isWhitespace ++ numStr) ++
      (trimStart tail).drop numStr.length := by
    rw [hto, List.append_assoc (front ++ tail.takeWhile isWhitespace)]
  rw [hspace, ← byteLength_append, ← byteLength_append]
  refine ⟨?_, ?_, ?_⟩
  · unfold usizeSub
    rw [byteLength_append, if_pos (by omega), Nat.add_sub_cancel]
  · rw [hto]
    exact sliceTo_append _ _
  · rw [hfrom]
    exact sliceFrom_append _ _

variable {tables : CaseTables}

theorem enforceLimitBytes_eq (sql : List Char) :
    enforceLimitBytes tables sql = enforceLimit tables sql := by
  unfold enforceLimitBytes enforceLimit
  rw [findKeywordPosBytes_eq, Option.bind_some]
  cases findKeywordPos (tables.toUppercase sql) "LIMIT".toList with
  | none => rfl
  | some limitPos =>
    dsimp only
    unfold sliceFrom
    cases hparts : splitAtByte (limitPos + 5) sql with
    | none => rfl
    | some parts =>
      obtain ⟨front, tail⟩ := parts
      obtain ⟨rfl, -⟩ := splitAtByte_eq_some_iff.mp hparts
      rw [Option.map_some, Option.bind_some, Option.map_some]
      unfold limitArgument
      dsimp only
      cases hword : (splitWhitespace (trimStart tail)).head? with
      | none => rfl
      | some numStr =>
        rw [Option.bind_some]
        dsimp only
        cases hn : parseU64 (trimMatches (fun c => !c.isDigit) numStr) with
        | none => rfl
        | some n =>
          obtain ⟨hsub, hto, hfrom⟩ := @number_slices front tail numStr hword
          unfold sliceFrom at hfrom
          rw [Option.map_some]
          dsimp only
          split_ifs
          · rw [hsub]
            simp only [Option.bind_eq_bind, Option.bind_some]
            rw [hto, Option.bind_some, hfrom, Option.bind_some]
            rfl
          · rfl

theorem checkBytes_eq (sql : List Char) : checkBytes tables sql = some (check tables sql) := by
  unfold checkBytes check
  rw [firstBanned_eq, Option.map_some]
  split_ifs
  all_goals rfl

/-- In bytes the validator does what it does in characters, and it panics with the one slice. -/
theorem validateSqlBytes_eq (sql pgSchema : List Char) :
    validateSqlBytes tables sql pgSchema =
      match validateSql tables sql pgSchema with
      | .ok v => some (.ok v)
      | .error (.rejected e) => some (.error e)
      | .error .panic => none := by
  unfold validateSqlBytes validateSql
  dsimp only
  rw [checkBytes_eq, Option.bind_some]
  cases check tables (trim sql) with
  | error e => rfl
  | ok u =>
    dsimp only
    rw [enforceLimitBytes_eq]
    cases enforceLimit tables (qualifyTables tables pgSchema (withoutEnd (trim sql))) <;> rfl

variable (tables) in
/-- The word `LIMIT` of the upper-cased copy, if there is one, ends at the byte where a character of
the text ends. -/
def LimitInPlace (sql : List Char) : Prop :=
  ∀ i, limitIndex tables sql = some i →
    ∃ front, front <+: sql ∧ byteLength front = byteLength ((tables.toUppercase sql).take (i + 5))

theorem byteLength_limit {u : List Char} {i : ℕ} (h : "LIMIT".toList <+: u.drop i) :
    byteLength (u.take (i + 5)) = byteLength (u.take i) + 5 := by
  obtain ⟨rest, hrest⟩ := h
  have htake : u.take (i + 5) = u.take i ++ "LIMIT".toList := by
    rw [List.take_add, ← hrest]
    rfl
  rw [htake, byteLength_append]
  rfl

theorem enforceLimit_some_iff (sql : List Char) :
    (∃ limited, enforceLimit tables sql = some limited) ↔ LimitInPlace tables sql := by
  unfold enforceLimit findKeywordPos LimitInPlace limitIndex
  cases hindex : keywordIndex (tables.toUppercase sql) "LIMIT".toList with
  | none => simp
  | some i =>
    have hspec := limit_spec (tables.toUppercase sql)
    rw [hindex] at hspec
    have hlength := byteLength_limit hspec.1.1
    rw [Option.map_some]
    dsimp only
    constructor
    · intro ⟨limited, hlimited⟩ j hj
      obtain rfl := Option.some.inj hj
      obtain ⟨parts, hparts, -⟩ := Option.map_eq_some_iff.mp hlimited
      obtain ⟨hsql, hbytes⟩ := splitAtByte_eq_some_iff.mp hparts
      exact ⟨parts.1, ⟨parts.2, hsql.symm⟩, by rw [hlength, hbytes]⟩
    · intro h
      obtain ⟨front, ⟨rest, hrest⟩, hbytes⟩ := h i rfl
      have hparts : splitAtByte (byteLength ((tables.toUppercase sql).take i) + 5) sql =
          some (front, rest) :=
        splitAtByte_eq_some_iff.mpr ⟨hrest.symm, by rw [hbytes, hlength]⟩
      rw [hparts]
      exact ⟨_, rfl⟩

theorem returns_of_limitInPlace {sql pgSchema : List Char}
    (h : LimitInPlace tables (qualifyTables tables pgSchema (withoutEnd (trim sql)))) :
    ∃ result, validateSqlBytes tables sql pgSchema = some result := by
  obtain ⟨limited, hlimited⟩ := (enforceLimit_some_iff _).mpr h
  rw [validateSqlBytes_eq]
  unfold validateSql
  dsimp only
  cases check tables (trim sql) with
  | error e => exact ⟨_, rfl⟩
  | ok u =>
    rw [hlimited]
    exact ⟨_, rfl⟩

theorem limitInPlace_of_steady {sql : List Char} (h : Steady tables sql) :
    LimitInPlace tables sql := by
  intro i hindex
  obtain ⟨front, rest, hsql, -, hbytes⟩ := h.limit_split hindex
  have hspec := limit_spec (tables.toUppercase sql)
  unfold limitIndex at hindex
  rw [hindex] at hspec
  exact ⟨front, ⟨rest, hsql.symm⟩, by rw [hbytes, byteLength_limit hspec.1.1]⟩

theorem validateSqlBytes_returns_of_ascii {sql pgSchema : List Char}
    (hsql : ∀ c ∈ sql, c.toNat < 128) (hschema : ∀ c ∈ pgSchema, c.toNat < 128) :
    ∃ result, validateSqlBytes tables sql pgSchema = some result := by
  have htrimmed : ∀ c ∈ withoutEnd (trim sql), c.toNat < 128 := by
    intro c hc
    have hsuffix := (List.rdropWhile_prefix _ _).subset (mem_of_mem_trimMatches hc)
    exact hsql c (mem_of_mem_trimMatches hsuffix)
  have hkeywords : ∀ kw ∈ prefixKeywords, ∀ c ∈ kw.toList, c.toNat < 128 := by
    intro kw hkw c hc
    have halpha := (keywords_letters kw hkw).2 c hc
    exact lt_of_wordByte (by simp [wordByte, Char.isAlphanum, halpha])
  have hascii := @forall_mem_qualifyTables tables (fun c => c.toNat < 128) pgSchema _ hkeywords
    (List.all_iff_forall_prop.mp (by decide)) hschema htrimmed
  exact returns_of_limitInPlace (limitInPlace_of_steady (steady_of_ascii hascii))

/-- The validator returns if and only if it turns the query down before it looks for the limit, or
the limit of the text with the table names is in place. -/
theorem validateSqlBytes_returns_iff (tables : CaseTables) (sql pgSchema : List Char) :
    (∃ result, validateSqlBytes tables sql pgSchema = some result) ↔
      (∃ e, check tables (trim sql) = .error e) ∨
        LimitInPlace tables (qualifyTables tables pgSchema (withoutEnd (trim sql))) := by
  constructor
  · intro ⟨result, hresult⟩
    rw [validateSqlBytes_eq] at hresult
    unfold validateSql at hresult
    dsimp only at hresult
    cases hcheck : check tables (trim sql) with
    | error e => exact .inl ⟨e, rfl⟩
    | ok u =>
      right
      apply (enforceLimit_some_iff _).mp
      rw [hcheck] at hresult
      dsimp only at hresult
      cases hlimit : enforceLimit tables
          (qualifyTables tables pgSchema (withoutEnd (trim sql))) with
      | none =>
        rw [hlimit] at hresult
        cases hresult
      | some limited => exact ⟨limited, rfl⟩
  · rintro (⟨e, hcheck⟩ | hplace)
    · rw [validateSqlBytes_eq]
      unfold validateSql
      dsimp only
      rw [hcheck]
      exact ⟨_, rfl⟩
    · exact returns_of_limitInPlace hplace

/-- The upper case of the iota with two marks is three characters. -/
def iotaTables : CaseTables where
  upper c := if c = 'ΐ' then [Char.ofNat 0x399, Char.ofNat 0x308, Char.ofNat 0x301] else [c.toUpper]
  lower s := s.map Char.toLower
  upper_ascii c h := by
    have hc : c ≠ 'ΐ' := by
      rintro rfl
      revert h
      decide
    exact if_neg hc

/-- The limit moves by four bytes, out of the text. -/
theorem validateSqlBytes_panics :
    validateSqlBytes iotaTables "SELECT 'ΐ' LIMIT 5".toList "public".toList = none := by
  decide +kernel

end Sql

end ForgeIndex
