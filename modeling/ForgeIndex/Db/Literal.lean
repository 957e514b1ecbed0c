import ForgeIndex.Db.Row
import ForgeIndex.Lib.SqlConstant

/-!
# Column values as SQL constants

What `Row::to_sql_literal` writes is spliced into the statements of the write buffer and of the query
builder.  Strings go between quotes with their own quotes doubled; a `BigNumeric` is copied.
-/

namespace ForgeIndex

open SqlLexer

/-- The constant stands for the value.  A `BigNumeric` is the number that its text is a decimal of, if
there is one. -/
def ColumnValue.DenotedBy : ColumnValue → Constant → Prop
  | .text s, .string v => v = s.toList
  | .json display, .string v => v = display.toList
  | .bytes b, .string v => ∃ hex, v = '\\' :: 'x' :: hex ∧ Hex.decode hex = some b
  | .boolean b, .bool b' => b' = b
  | .int i, .number n => n.value = i.toInt
  | .bigInt i, .number n => n.value = i.toInt
  | .bigNumeric s, .number n => ∀ m : Decimal, m.text = s.toList → n.value = m.value
  | .null, .null => True
  | _, _ => False

namespace Row

theorem toList_doubleQuotes (s : String) : (doubleQuotes s).toList = doubled '\'' s.toList := by
  unfold doubleQuotes doubled
  rw [String.toList_ofList]

theorem toSqlLiteral_string (s : String) :
    ("'" ++ doubleQuotes s ++ "'").toList = (Constant.string s.toList).text := by
  rw [String.toList_append, String.toList_append, toList_doubleQuotes]
  rfl

theorem isConstant_string {text v : List Char} (htext : text = (Constant.string v).text)
    (hv : NulFree v) : IsConstant text (.string v) :=
  isConstant_iff.mpr ⟨htext, fun _ hw => Constant.string.inj hw ▸ hv⟩

theorem notMem_hexEncode {d : Char} (h : ∀ n < 16, Hex.digit n ≠ d) (b : List UInt8) :
    d ∉ Hex.encode b := by
  intro hmem
  obtain ⟨byte, -, hbyte⟩ := List.mem_flatMap.mp hmem
  have hlt := byte.toNat_lt
  rcases List.mem_cons.mp hbyte with hdigit | hdigit
  · exact h _ (by omega) hdigit.symm
  · exact h _ (by omega) (List.mem_singleton.mp hdigit).symm

theorem quote_notMem_hexEncode (b : List UInt8) : '\'' ∉ Hex.encode b := by
  apply notMem_hexEncode
  intro n hn
  interval_cases n <;> decide

theorem nulFree_hexEncode (b : List UInt8) : NulFree (Hex.encode b) := by
  apply notMem_hexEncode
  intro n hn
  interval_cases n <;> decide

theorem toSqlLiteral_bytes (b : List UInt8) :
    (toSqlLiteral (.bytes b)).toList = (Constant.string ('\\' :: 'x' :: Hex.encode b)).text := by
  have hquote : '\'' ∉ '\\' :: 'x' :: Hex.encode b := by
    simpa using quote_notMem_hexEncode b
  have htext : (toSqlLiteral (.bytes b)).toList = '\'' :: ('\\' :: 'x' :: Hex.encode b ++ ['\'']) := by
    show ("'\\x" ++ String.ofList (Hex.encode b) ++ "'").toList = _
    simp
  unfold Constant.text
  dsimp only
  rw [htext, doubled_of_not_mem hquote]

theorem isConstant_int {text : List Char} {i : ℤ} (h : text = (toString i).toList) :
    IsConstant text (.number (.ofInt i)) :=
  isConstant_iff.mpr ⟨h.trans (Decimal.text_ofInt i).symm, nofun⟩

theorem isConstant_of_plain {v : ColumnValue} (hfloat : ∀ display, v ≠ .float display)
    (hnumeric : ∀ s, v = .bigNumeric s → ∃ n : Decimal, n.text = s.toList)
    (hstring : ∀ s, v = .text s ∨ v = .json s → NulFree s.toList) :
    ∃ c, IsConstant (toSqlLiteral v).toList c ∧ v.DenotedBy c := by
  cases v with
  | text s => exact ⟨_, isConstant_string (toSqlLiteral_string s) (hstring s (.inl rfl)), rfl⟩
  | boolean b => exact ⟨.bool b, isConstant_iff.mpr ⟨rfl, nofun⟩, rfl⟩
  | int i => exact ⟨_, isConstant_int rfl, Decimal.value_ofInt _⟩
  | bigInt i => exact ⟨_, isConstant_int rfl, Decimal.value_ofInt _⟩
  | float display => exact absurd rfl (hfloat display)
  | bytes b =>
    have hnul : NulFree ('\\' :: 'x' :: Hex.encode b) := by
      simpa using nulFree_hexEncode b
    exact ⟨_, isConstant_string (toSqlLiteral_bytes b) hnul, _, rfl, Hex.decode_encode b⟩
  | json display =>
    exact ⟨_, isConstant_string (toSqlLiteral_string display) (hstring display (.inr rfl)), rfl⟩
  | null => exact ⟨.null, isConstant_iff.mpr ⟨rfl, nofun⟩, trivial⟩
  | bigNumeric s =>
    obtain ⟨n, hn⟩ := hnumeric s rfl
    refine ⟨.number n, isConstant_iff.mpr ⟨hn.symm, nofun⟩, fun m hm => ?_⟩
    rw [Decimal.text_inj (hm.trans hn.symm)]

/-- What is written for a value is one constant that denotes it, unless a `BigNumeric` holds another
text than that of a decimal number or a string holds U+0000. -/
theorem toSqlLiteral_isConstant_iff {v : ColumnValue} (hfloat : ∀ display, v ≠ .float display) :
    (∃ c, IsConstant (toSqlLiteral v).toList c ∧ v.DenotedBy c) ↔
      (∀ s, v = .bigNumeric s → ∃ n : Decimal, n.text = s.toList) ∧
        ∀ s, v = .text s ∨ v = .json s → NulFree s.toList := by
  constructor
  · intro ⟨c, hconstant, hdenotes⟩
    obtain ⟨htext, hnul⟩ := isConstant_iff.mp hconstant
    constructor
    · intro s hs
      subst hs
      cases c with
      | number n => exact ⟨n, htext.symm⟩
      | _ => exact absurd hdenotes id
    · intro s hs
      -- only a string denotes a string
      have hstring : c = .string s.toList := by
        rcases hs with hs | hs
        all_goals
          subst hs
          cases c with
          | string v => exact congrArg _ hdenotes
          | _ => exact absurd hdenotes id
      exact hnul _ hstring
  · intro ⟨hnumeric, hstring⟩
    exact isConstant_of_plain hfloat hnumeric hstring

/-- `1000000000000000000` is written as this number. -/
theorem toSqlLiteral_isConstant_iff_ether :
    ∃ c, IsConstant (toSqlLiteral (.bigNumeric "1000000000000000000")).toList c ∧
      (ColumnValue.bigNumeric "1000000000000000000").DenotedBy c := by
  have hfloat : ∀ display, ColumnValue.bigNumeric "1000000000000000000" ≠ .float display := by
    intro display h
    cases h
  refine (toSqlLiteral_isConstant_iff hfloat).mpr ⟨fun s hs => ⟨.ofInt (10 ^ 18), ?_⟩, ?_⟩
  · rw [← ColumnValue.bigNumeric.inj hs]
    exact Decimal.text_ofInt (10 ^ 18)
  · intro s hs
    rcases hs with hs | hs <;> cases hs

/-- `0 OR true` is no constant, and a statement that it is put into reads an `OR` there. -/
theorem bigNumeric_not_constant :
    (¬∃ c, IsConstant (toSqlLiteral (.bigNumeric "0 OR true")).toList c ∧
      (ColumnValue.bigNumeric "0 OR true").DenotedBy c) ∧
    lex ("DELETE FROM \"t\" WHERE \"id\" IN (".toList ++
        (toSqlLiteral (.bigNumeric "0 OR true")).toList ++ [')']) =
      [.word "DELETE".toList, .word "FROM".toList, .quoted "t".toList, .word "WHERE".toList,
        .quoted "id".toList, .word "IN".toList, .symbol '(', .number ['0'], .word "OR".toList,
        .word "true".toList, .symbol ')'] := by
  refine ⟨?_, by decide +kernel⟩
  rintro ⟨c, hconstant, -⟩
  exact absurd hconstant.2.1 (by decide)

end Row

end ForgeIndex
