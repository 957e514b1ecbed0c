import ForgeIndex.Api.Graphql.Filters
import ForgeIndex.Db.Literal
import ForgeIndex.Lib.SqlString

/-!
# String literals

`Row::to_sql_literal`, `value_to_sql_literal` and `value_to_sql` write a string in the same way.  What
they write is read back as one constant, unless the string holds U+0000 or the text behind it belongs
to the constant as well.
-/

namespace ForgeIndex

open SqlLexer Resolver

/-- The three writers agree, and a reader finds the string and stops behind it if and only if neither
a quote nor a continuation of the constant is there.  U+0000 has no place in the text. -/
theorem stringLiteral_read_back_iff (s : String) :
    ∃ text, (Row.toSqlLiteral (.text s)).toList = text ∧
      (Row.toSqlLiteral (.json s)).toList = text ∧
      Filters.valueToSqlLiteral (.string s) = some text ∧ valueToSql (.string s) = text ∧
      ∀ rest, readConstant (text ++ rest) = some (s.toList, rest) ↔
        (NulFree s.toList ∧ NulFree rest) ∧ rest.head? ≠ some '\'' ∧
          ¬∃ tail, ContinuedBy rest tail := by
  have hvalue : valueToSql (.string s) = (Constant.string s.toList).text := by
    unfold valueToSql Constant.text
    dsimp only
    rw [replaceAll_quote]
    rfl
  refine ⟨_, Row.toSqlLiteral_string s, Row.toSqlLiteral_string s, congrArg some hvalue, hvalue, ?_⟩
  intro rest
  have htext : (Constant.string s.toList).text ++ rest =
      '\'' :: (doubled '\'' s.toList ++ '\'' :: rest) := by
    simp [Constant.text]
  rw [htext]
  exact readConstant_doubled_iff

/-- `'a'` and `'b'` on the next line are the constant `ab`. -/
theorem stringLiteral_continued :
    "\n'b'".toList.head? ≠ some '\'' ∧
      readConstant ((Row.toSqlLiteral (.text "a")).toList ++ "\n'b'".toList) =
        some ("ab".toList, []) ∧
      (∃ text, Filters.valueToSqlLiteral (.string "a") = some text ∧
        readConstant (text ++ "\n'b'".toList) = some ("ab".toList, [])) ∧
      readConstant (valueToSql (.string "a") ++ "\n'b'".toList) = some ("ab".toList, []) := by
  have hread : readConstant "'a'\n'b'".toList = some ("ab".toList, []) := by
    have htail : ContinuedBy "\n'b'".toList "b'".toList := continuation_eq_some_iff.mp rfl
    have hend : ¬∃ tail, ContinuedBy [] tail := by
      rintro ⟨tail, htail⟩
      exact absurd (continuation_eq_some_iff.mpr htail) nofun
    have hfirst : readQuoted '\'' false "a'\n'b'".toList = some (['a'], "\n'b'".toList) := rfl
    have hsecond : readQuoted '\'' false "b'".toList = some (['b'], []) := rfl
    show (if '\'' = '\'' ∧ NulFree "a'\n'b'".toList then readString "a'\n'b'".toList else none) = _
    rw [if_pos ⟨rfl, by decide⟩]
    rw [readString_part hfirst htail, readString_last hsecond hend]
    rfl
  exact ⟨by decide, hread, ⟨_, rfl, hread⟩, hread⟩

end ForgeIndex
