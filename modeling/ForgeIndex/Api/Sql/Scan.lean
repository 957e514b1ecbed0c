import ForgeIndex.Api.Sql.Panics

/-!
# The keyword scan

The loop of `contains_keyword` and `find_keyword_pos`, one pass at a time: it ends, no slice is out
of place, and what it finds is the first occurrence of the keyword without a letter, a digit or an
underscore next to it, although it goes on behind an occurrence that is not such a one.
-/

namespace ForgeIndex

open Text

namespace Sql

/-- Where a loop is. -/
inductive LoopState (β : Type) where
  | panicked
  | running (start : ℕ)
  | returned (b : β)
  deriving DecidableEq, Repr

section Loop

variable {β : Type} (found : ℕ → β) (absent : β)

/-- One pass of the loop: `found` and `absent` are what the function returns. -/
def scanPass (upperSql keyword : List Char) (start : ℕ) : LoopState β :=
  match sliceFrom start upperSql with
  | none => .panicked
  | some rest =>
    match findByte keyword rest with
    | none => .returned absent
    | some pos =>
      match aloneAt upperSql keyword (start + pos) with
      | none => .panicked
      | some true => .returned (found (start + pos))
      | some false => .running (start + pos + byteLength keyword)

/-- The loop after some passes. -/
def scanPasses (upperSql keyword : List Char) : ℕ → ℕ → LoopState β
  | 0, start => .running start
  | n + 1, start =>
    match scanPass found absent upperSql keyword start with
    | .running next => scanPasses upperSql keyword n next
    | .panicked => .panicked
    | .returned b => .returned b

end Loop

/-- `contains_keyword` after some passes. -/
def containsKeywordPasses (upperSql keyword : List Char) (n : ℕ) : LoopState Bool :=
  scanPasses (fun _ => true) false upperSql keyword n 0

/-- `find_keyword_pos` after some passes. -/
def findKeywordPosPasses (upperSql keyword : List Char) (n : ℕ) : LoopState (Option ℕ) :=
  scanPasses some none upperSql keyword n 0

/-- The keyword occurs at a position in bytes, and no byte next to it is an ASCII letter, a digit
or an underscore. -/
structure WordAt (u k : List Char) (p : ℕ) : Prop where
  occurs : Utf8.encode k <+: (Utf8.encode u).drop p
  before : p ≠ 0 → ∀ b ∈ byteAt u (p - 1), isWordByte b = false
  behind : ∀ b ∈ byteAt u (p + byteLength k), isWordByte b = false

section Loop

variable {β : Type} {found : ℕ → β} {absent : β} {k : List Char}

theorem scanPasses_eq (hk : k ≠ []) (fuel : ℕ) (a b : List Char) (hfuel : b.length < fuel) :
    scanPasses found absent (a ++ b) k fuel (byteLength a) =
      .returned (match scanKeyword (a ++ b) k fuel a.length with
        | some i => found (byteLength ((a ++ b).take i))
        | none => absent) := by
  induction fuel generalizing a b with
  | zero => omega
  | succ fuel ih =>
    unfold scanPasses scanPass
    rw [scanKeyword, sliceFrom_append, List.drop_left]
    dsimp only
    unfold findByte
    cases hfind : find k b with
    | none => rfl
    | some pos =>
      have hle := (find_eq_some_iff.mp hfind).2.1
      have hsplit : a ++ b = (a ++ b.take pos) ++ (k ++ b.drop (pos + k.length)) := by
        rw [List.append_assoc, ← find_split hfind]
      have hbytes : byteLength a + byteLength (b.take pos) = byteLength (a ++ b.take pos) :=
        (byteLength_append _ _).symm
      have hindex : a.length + pos = (a ++ b.take pos).length := by
        rw [List.length_append, List.length_take, Nat.min_eq_left hle]
      have hshorter : (b.drop (pos + k.length)).length < fuel := by
        have hlength := congrArg List.length (find_split hfind)
        have hpos := List.length_pos_iff.mpr hk
        simp only [List.length_append, List.length_drop] at hlength ⊢
        omega
      rw [Option.map_some]
      dsimp only
      rw [hbytes, hindex, hsplit, aloneAt_eq]
      cases halone : standsAlone (a ++ b.take pos ++ (k ++ b.drop (pos + k.length))) k
          (a ++ b.take pos).length with
      | true =>
        rw [if_pos rfl]
        dsimp only
        rw [List.take_left]
      | false =>
        have hrest := ih (a ++ b.take pos ++ k) (b.drop (pos + k.length)) hshorter
        have hlength : (a ++ b.take pos ++ k).length = (a ++ b.take pos).length + k.length :=
          List.length_append
        rw [List.append_assoc (a ++ b.take pos), byteLength_append (a ++ b.take pos), hlength]
          at hrest
        rw [if_neg Bool.false_ne_true]
        exact hrest

theorem scanPasses_add {u : List Char} {n start : ℕ} {b : β}
    (h : scanPasses found absent u k n start = .returned b) (m : ℕ) :
    scanPasses found absent u k (n + m) start = .returned b := by
  induction n generalizing start with
  | zero => cases h
  | succ n ih =>
    rw [Nat.succ_add]
    unfold scanPasses at h ⊢
    cases hpass : scanPass found absent u k start with
    | running next =>
      rw [hpass] at h
      exact ih h
    | panicked =>
      rw [hpass] at h
      cases h
    | returned c =>
      rw [hpass] at h
      exact h

theorem scanPasses_returned (hk : k ≠ []) {u : List Char} {n : ℕ} (hn : u.length < n) :
    scanPasses found absent u k n 0 =
      .returned (match keywordIndex u k with
        | some i => found (byteLength (u.take i))
        | none => absent) := by
  have h := @scanPasses_eq β found absent k hk (u.length + 1) [] u (Nat.lt_succ_self _)
  have hsum : u.length + 1 + (n - (u.length + 1)) = n := by omega
  rw [← hsum]
  exact scanPasses_add h _

end Loop

theorem containsKeywordPasses_returned {u k : List Char} (hk : k ≠ []) {n : ℕ}
    (hn : u.length < n) : containsKeywordPasses u k n = .returned (containsKeyword u k) := by
  unfold containsKeywordPasses containsKeyword
  rw [scanPasses_returned hk hn]
  cases keywordIndex u k <;> rfl

theorem findKeywordPosPasses_returned {u k : List Char} (hk : k ≠ []) {n : ℕ}
    (hn : u.length < n) : findKeywordPosPasses u k n = .returned (findKeywordPos u k) := by
  unfold findKeywordPosPasses findKeywordPos
  rw [scanPasses_returned hk hn]
  cases keywordIndex u k <;> rfl

theorem beforeOk_iff {u : List Char} {p : ℕ} {x : Bool} (h : beforeOk u p = some x) :
    x = true ↔ (p ≠ 0 → ∀ b ∈ byteAt u (p - 1), isWordByte b = false) := by
  unfold beforeOk at h
  split_ifs at h with hp
  · rw [← Option.some.inj h]
    exact iff_of_true rfl fun hne => absurd hp hne
  · obtain ⟨b, hb, hx⟩ := Option.map_eq_some_iff.mp h
    rw [hb, ← hx]
    simp [hp]

theorem afterOk_iff {u : List Char} {p : ℕ} {x : Bool} (h : afterOk u p = some x) :
    x = true ↔ ∀ b ∈ byteAt u p, isWordByte b = false := by
  unfold afterOk at h
  split_ifs at h with hp
  · have hnone : byteAt u p = none := by
      unfold byteAt
      exact List.getElem?_eq_none (by rw [length_encode]; exact hp)
    rw [← Option.some.inj h, hnone]
    simp
  · obtain ⟨b, hb, hx⟩ := Option.map_eq_some_iff.mp h
    rw [hb, ← hx]
    simp

theorem wordAt_append (a k b : List Char) :
    WordAt (a ++ (k ++ b)) k (byteLength a) ↔ StandsAt (a ++ (k ++ b)) k a.length := by
  have halone := aloneAt_eq a k b
  unfold aloneAt at halone
  obtain ⟨before, hbefore, hmap⟩ := Option.bind_eq_some_iff.mp halone
  obtain ⟨behind, hbehind, hand⟩ := Option.map_eq_some_iff.mp hmap
  have hoccurs : Utf8.encode k <+: (Utf8.encode (a ++ (k ++ b))).drop (byteLength a) := by
    rw [encode_append, encode_append, ← length_encode, List.drop_left]
    exact List.prefix_append _ _
  have hstands : k <+: (a ++ (k ++ b)).drop a.length := by
    rw [List.drop_left]
    exact List.prefix_append _ _
  unfold StandsAt
  rw [← hand, Bool.and_eq_true, beforeOk_iff hbefore, afterOk_iff hbehind]
  exact ⟨fun h => ⟨hstands, h.before, h.behind⟩, fun h => ⟨hoccurs, h.2.1, h.2.2⟩⟩

section Word

variable {u k : List Char}

theorem wordAt_of_standsAt {i : ℕ} (hk : k ≠ []) (h : StandsAt u k i) :
    WordAt u k (byteLength (u.take i)) := by
  obtain ⟨b, hb⟩ := h.1
  have hle : i ≤ u.length := by
    have hlength := congrArg List.length hb
    have hpos := List.length_pos_iff.mpr hk
    rw [List.length_append, List.length_drop] at hlength
    omega
  have hsplit : u = u.take i ++ (k ++ b) := by rw [hb, List.take_append_drop]
  have hindex : (u.take i).length = i := List.length_take_of_le hle
  have hiff := wordAt_append (u.take i) k b
  rw [← hsplit, hindex] at hiff
  exact hiff.mpr h

theorem exists_standsAt (hk : k ≠ []) (hascii : ∀ c ∈ k, c.toNat < 128) {p : ℕ}
    (h : WordAt u k p) : ∃ i, StandsAt u k i ∧ byteLength (u.take i) = p := by
  obtain ⟨c, k, rfl⟩ := List.exists_cons_of_ne_nil hk
  obtain ⟨a, b, rfl, rfl⟩ := split_of_encode_prefix hascii h.occurs
  refine ⟨a.length, (wordAt_append a (c :: k) b).mp h, ?_⟩
  rw [List.take_left]

theorem byteLength_take_le {i j : ℕ} (h : i ≤ j) :
    byteLength (u.take i) ≤ byteLength (u.take j) := by
  have hsplit := List.take_append_drop i (u.take j)
  rw [List.take_take, Nat.min_eq_left h] at hsplit
  rw [← hsplit, byteLength_append]
  exact Nat.le_add_right _ _

end Word

/-- Both loops return, `contains_keyword` whether the keyword is a word of the text and
`find_keyword_pos` the first position at which it is one. -/
theorem keywordScan_complete (u k : List Char) (hk : k ≠ [])
    (hletters : ∀ c ∈ k, c.isAlpha = true) :
    (∃ b, (∀ n, u.length < n → containsKeywordPasses u k n = .returned b) ∧
      (b = true ↔ ∃ p, WordAt u k p)) ∧
    ∃ r, (∀ n, u.length < n → findKeywordPosPasses u k n = .returned r) ∧
      match r with
      | some p => WordAt u k p ∧ ∀ q, WordAt u k q → p ≤ q
      | none => ∀ q, ¬WordAt u k q := by
  have hword : ∀ c ∈ k, wordByte c = true := by
    intro c hc
    unfold wordByte Char.isAlphanum
    rw [hletters c hc, Bool.true_or, Bool.true_or]
  have hascii : ∀ c ∈ k, c.toNat < 128 := fun c hc => lt_of_wordByte (hword c hc)
  have hspec := keywordIndex_spec (u := u) hk hword
  refine ⟨⟨_, fun n hn => containsKeywordPasses_returned hk hn, ?_⟩,
    ⟨_, fun n hn => findKeywordPosPasses_returned hk hn, ?_⟩⟩
  · rw [containsKeyword_iff hk hword]
    constructor
    · intro ⟨i, hi⟩
      exact ⟨_, wordAt_of_standsAt hk hi⟩
    · intro ⟨p, hp⟩
      obtain ⟨i, hi, -⟩ := exists_standsAt hk hascii hp
      exact ⟨i, hi⟩
  · unfold findKeywordPos
    cases hindex : keywordIndex u k with
    | none =>
      rw [hindex] at hspec
      intro q hq
      obtain ⟨i, hi, -⟩ := exists_standsAt hk hascii hq
      exact hspec i hi
    | some i =>
      rw [hindex] at hspec
      refine ⟨wordAt_of_standsAt hk hspec.1, ?_⟩
      intro q hq
      obtain ⟨j, hj, rfl⟩ := exists_standsAt hk hascii hq
      exact byteLength_take_le (Nat.not_lt.mp fun hlt => hspec.2 j hlt hj)

theorem keywordScan_complete_self_overlapping :
    (∃ b, (∀ n, "AAA AA".toList.length < n →
        containsKeywordPasses "AAA AA".toList "AA".toList n = .returned b) ∧
      (b = true ↔ ∃ p, WordAt "AAA AA".toList "AA".toList p)) ∧
    ∃ r, (∀ n, "AAA AA".toList.length < n →
        findKeywordPosPasses "AAA AA".toList "AA".toList n = .returned r) ∧
      match r with
      | some p => WordAt "AAA AA".toList "AA".toList p ∧
          ∀ q, WordAt "AAA AA".toList "AA".toList q → p ≤ q
      | none => ∀ q, ¬WordAt "AAA AA".toList "AA".toList q :=
  keywordScan_complete "AAA AA".toList "AA".toList (by decide) (List.all_eq_true.mp (by decide))

-- behind the first two letters the scan finds the word
example : findKeywordPosPasses "AAA AA".toList "AA".toList 7 = .returned (some 4) := by
  decide +kernel

end Sql

end ForgeIndex
