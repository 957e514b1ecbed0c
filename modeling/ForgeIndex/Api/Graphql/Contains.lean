import ForgeIndex.Lib.AsciiCase
import ForgeIndex.Lib.Like
import ForgeIndex.Api.Graphql.Filters

/-!
# What `contains` finds

The value goes into the pattern as it is, but for its quotes.  Characters with a meaning in patterns
keep it, so that `50%` also finds the texts with any character behind the 50.
-/

namespace ForgeIndex

open Text SqlLexer AsciiCase

namespace Filters

theorem buildCondition_contains (field raw : String) :
    ∃ literal, buildCondition field "contains" (.string raw) =
        some (quoteName field ++ ' ' :: ("ILIKE".toList ++ ' ' :: literal)) ∧
      lex literal = [.string (Like.containing raw.toList)] := by
  refine ⟨'\'' :: ('%' :: replaceAll ['\''] ['\'', '\''] raw.toList ++ ['%', '\'']), rfl, ?_⟩
  rw [pattern_literal]
  exact (reads_string (Like.containing raw.toList)).lex_eq

/-- The pattern matches exactly the texts in which the value occurs, if and only if the value has no
percent sign, no underscore and no backslash. -/
theorem contains_finds_iff {lower : Char → Char} (h : Like.Lowers lower) (field raw : String) :
    ∃ literal pattern, buildCondition field "contains" (.string raw) =
        some (quoteName field ++ ' ' :: ("ILIKE".toList ++ ' ' :: literal)) ∧
      lex literal = [.string pattern] ∧
      ((∀ v, Like.ilike lower pattern v = true ↔ Like.Occurs lower raw.toList v) ↔
        ∀ c ∈ raw.toList, ¬Like.Special c) := by
  obtain ⟨literal, hcondition, hlex⟩ := buildCondition_contains field raw
  exact ⟨literal, _, hcondition, hlex, Like.ilike_containing_iff h raw.toList⟩

theorem lowers_toLower : Like.Lowers Char.toLower where
  idem c := by
    by_cases hc : 65 ≤ c.toNat ∧ c.toNat ≤ 90
    · apply toLower_of_not_upper
      rw [toNat_toLower hc]
      omega
    · rw [toLower_of_not_upper hc, toLower_of_not_upper hc]
  special m hm c := by
    by_cases hc : 65 ≤ c.toNat ∧ c.toNat ≤ 90
    · -- a letter in both cases, which no such character is
      have hlower := toNat_toLower hc
      have hcode : m.toNat = 37 ∨ m.toNat = 95 ∨ m.toNat = 92 := by
        rcases hm with rfl | rfl | rfl
        · exact .inl rfl
        · exact .inr (.inl rfl)
        · exact .inr (.inr rfl)
      constructor
      · intro heq
        rw [heq] at hlower
        omega
      · intro heq
        rw [heq] at hc
        omega
    · rw [toLower_of_not_upper hc]

/-- `contains: "alice"` finds `Malice`. -/
theorem contains_finds_iff_alice :
    ∃ literal pattern, buildCondition "name" "contains" (.string "alice") =
        some (quoteName "name" ++ ' ' :: ("ILIKE".toList ++ ' ' :: literal)) ∧
      lex literal = [.string pattern] ∧
      Like.ilike Char.toLower pattern "Malice".toList = true := by
  obtain ⟨literal, pattern, hcondition, hlex, hiff⟩ :=
    contains_finds_iff lowers_toLower "name" "alice"
  refine ⟨literal, pattern, hcondition, hlex, (hiff.mpr (List.all_iff_forall_prop.mp (by decide)) _).mpr ?_⟩
  exact ⟨"m".toList, [], by decide⟩

/-- `contains: "50%"` finds `500 apples`. -/
theorem contains_finds_percent :
    ∃ literal, buildCondition "name" "contains" (.string "50%") =
        some (quoteName "name" ++ ' ' :: ("ILIKE".toList ++ ' ' :: literal)) ∧
      lex literal = [.string "%50%%".toList] ∧
      Like.ilike Char.toLower "%50%%".toList "500 apples".toList = true ∧
      ¬Like.Occurs Char.toLower "50%".toList "500 apples".toList := by
  obtain ⟨literal, hcondition, hlex⟩ := buildCondition_contains "name" "50%"
  refine ⟨literal, hcondition, hlex, by decide +kernel, ?_⟩
  unfold Like.Occurs
  decide

end Filters

end ForgeIndex
