import ForgeIndex.Api.Graphql.Pages

/-!
# The total count of a list

`resolve_list` puts the conditions of the cursors into the clause of its count query as well.  So the
total is that of the filter as long as the cursors take no matching row away.
-/

namespace ForgeIndex

open Text SqlLexer

namespace Resolver

/-- The arguments of a list query of the GraphQL schema: the columns are the table's, as are the
fields of the filter. -/
structure IsListQuery (args : ListArgs) : Prop where
  pkCol_mem : args.pkCol ∈ args.columns
  orderCol_mem : args.orderCol ∈ args.columns
  quotable : ∀ c ∈ args.columns, '"' ∉ c.toList
  filter_fields : ∀ f, args.filter = some f → Filters.IsFilter args.columns f

/-- A cursor that decodes, with the operator of its comparison. -/
def decodedCursor (serde : Serde) (op : Char) (cursor : Option (List Char)) :
    List (Char × CursorData) :=
  match cursor with
  | none => []
  | some text =>
    match Pagination.decodeCursor serde.fromStr text with
    | .error _ => []
    | .ok c => [(op, c)]

/-- The cursors of a request that decode. -/
def decodedCursors (serde : Serde) (after before : Option (List Char)) :
    List (Char × CursorData) :=
  decodedCursor serde '>' after ++ decodedCursor serde '<' before

/-- No quote of the key ends its string, and a number is one of JSON. -/
def Tame (c : CursorData) : Prop :=
  '\'' ∉ c.pkValue ∧ ∀ text, c.orderVal = .number text → IsJsonNumber text.toList

theorem cursorParts_eq (serde : Serde) (op : Char) (orderCol pkCol : List Char)
    (cursor : Option (List Char)) :
    cursorParts serde.fromStr op orderCol pkCol cursor =
      (decodedCursor serde op cursor).map fun p => cursorCondition p.1 orderCol pkCol p.2 := by
  unfold cursorParts decodedCursor
  cases cursor with
  | none => rfl
  | some text =>
    dsimp only
    cases Pagination.decodeCursor serde.fromStr text <;> rfl

theorem op_of_mem_decodedCursors {serde : Serde} {after before : Option (List Char)}
    {p : Char × CursorData} (h : p ∈ decodedCursors serde after before) : p.1 = '>' ∨ p.1 = '<' := by
  have hop {op : Char} {cursor : Option (List Char)} (hp : p ∈ decodedCursor serde op cursor) :
      p.1 = op := by
    unfold decodedCursor at hp
    split at hp
    · cases hp
    · split at hp
      · cases hp
      · rw [List.mem_singleton.mp hp]
  exact (List.mem_append.mp h).imp hop hop

variable {K : Type} [LinearOrder K] {db : Database K} {serde : Serde} {args : ListArgs}

/-- The clause of both queries. -/
def listClause (serde : Serde) (args : ListArgs) (after before : Option (List Char)) :
    Option (List Char) :=
  whereClause (filterParts args.filter ++ (decodedCursors serde after before).map fun p =>
    cursorCondition p.1 args.orderCol.toList args.pkCol.toList p.2)

/-- The row meets the comparison with the constants of the cursor. -/
def MeetsCursor (db : Database K) (args : ListArgs) (p : Char × CursorData) (row : DbRow) : Prop :=
  db.truth row (comparisonTokens p.1 args.orderCol.toList args.pkCol.toList p.2) = true

/-- With an order value that can be compared, the rows behind the cursor meet `after` and those ahead
of it meet `before`. -/
theorem meetsCursor_iff {p : Char × CursorData} (hop : p.1 = '>' ∨ p.1 = '<')
    (hvalue : IsOrderValue p.2.orderVal) (row : DbRow) :
    MeetsCursor db args p row ↔
      let bound : K ×ₗ K := toLex (db.rank args.orderCol p.2.orderVal,
        db.rank args.pkCol (.string (String.ofList p.2.pkValue)))
      if p.1 = '>' then bound < rowPlace db args row else rowPlace db args row < bound := by
  unfold MeetsCursor Database.truth
  rw [ofTokens_comparisonTokens hop args.orderCol args.pkCol hvalue]
  dsimp only
  split_ifs
  · exact decide_eq_true_iff
  · exact decide_eq_true_iff

theorem totalCount_eq {after before : Option (List Char)} {result : ListResult}
    (h : resolveList db.pool serde args after before = .ok result) :
    result.totalCount = ((db.relation args.pgSchema args.table).filter
      (db.satisfies (listClause serde args after before))).length := by
  have hclause : whereClause (filterParts args.filter ++
      cursorParts serde.fromStr '>' args.orderCol.toList args.pkCol.toList after ++
        cursorParts serde.fromStr '<' args.orderCol.toList args.pkCol.toList before) =
      listClause serde args after before := by
    unfold listClause decodedCursors
    rw [cursorParts_eq, cursorParts_eq, List.map_append, List.append_assoc]
  unfold resolveList at h
  dsimp only at h
  rw [hclause] at h
  cases hcount : db.pool.fetchOne ⟨args.pgSchema, args.table,
      listClause serde args after before⟩ with
  | error e =>
    rw [hcount] at h
    cases h
  | ok total =>
    rw [hcount] at h
    cases hrows : db.pool.fetchAll ⟨args.pgSchema, args.table, args.columns,
        listClause serde args after before, args.orderCol, args.pkCol, args.dir,
        args.effectiveLimit + 1⟩ with
    | error e =>
      rw [hrows] at h
      cases h
    | ok rows =>
      rw [hrows] at h
      cases h
      exact Database.of_fetchOne hcount

theorem satisfies_listClause (h : IsListQuery args) {after before : Option (List Char)}
    (htame : ∀ p ∈ decodedCursors serde after before, Tame p.2) (row : DbRow) :
    db.satisfies (listClause serde args after before) row =
      (db.satisfies (whereClause (filterParts args.filter)) row &&
        (decodedCursors serde after before).all fun p =>
          db.truth row (comparisonTokens p.1 args.orderCol.toList args.pkCol.toList p.2)) := by
  have hfilter : ∀ text ∈ filterConditions args.filter, ReadsCondition text := by
    intro text htext
    cases hf : args.filter with
    | none =>
      rw [hf] at htext
      cases htext
    | some f =>
      rw [hf] at htext
      exact Filters.readsCondition_of_mem_conditions h.quotable (h.filter_fields f hf) htext
  have hread : ∀ p ∈ decodedCursors serde after before,
      Lexes (cursorCondition p.1 args.orderCol.toList args.pkCol.toList p.2)
        (comparisonTokens p.1 args.orderCol.toList args.pkCol.toList p.2) := fun p hp =>
    reads_cursorCondition (op_of_mem_decodedCursors hp) (h.quotable _ h.orderCol_mem)
      (h.quotable _ h.pkCol_mem) (htame p hp).2 (htame p hp).1
  have htexts : ∀ text ∈ (decodedCursors serde after before).map fun p =>
      cursorCondition p.1 args.orderCol.toList args.pkCol.toList p.2, ReadsCondition text := by
    intro text htext
    obtain ⟨p, hp, rfl⟩ := List.mem_map.mp htext
    exact ⟨_, hread p hp, isCondition_comparisonTokens (op_of_mem_decodedCursors hp) _ _ _⟩
  unfold listClause
  rw [satisfies_filterParts_append db hfilter row htexts, List.all_map]
  congr 1
  apply Bool.eq_iff_iff.mpr
  rw [List.all_eq_true, List.all_eq_true]
  apply forall₂_congr
  intro p hp
  rw [Function.comp_apply, (hread p hp).lex_eq]

/-- The cursors take no row that meets the filter away. -/
def CountsAll (db : Database K) (serde : Serde) (args : ListArgs)
    (after before : Option (List Char)) : Prop :=
  ∀ row ∈ matching db args, ∀ p ∈ decodedCursors serde after before, MeetsCursor db args p row

/-- The rows that meet the clause of tame cursors are among those that meet the filter. -/
theorem filter_listClause (h : IsListQuery args) {after before : Option (List Char)}
    (htame : ∀ p ∈ decodedCursors serde after before, Tame p.2) :
    (db.relation args.pgSchema args.table).filter
        (db.satisfies (listClause serde args after before)) =
      (matching db args).filter fun row => (decodedCursors serde after before).all fun p =>
        db.truth row (comparisonTokens p.1 args.orderCol.toList args.pkCol.toList p.2) := by
  unfold matching
  rw [List.filter_filter]
  apply List.filter_congr
  intro row _
  rw [satisfies_listClause h htame, Bool.and_comm]

/-- The total count is that of the clause with the conditions of the cursors.  For tame cursors it is
the number of rows that meet the filter if and only if the cursors take none of these away; another
cursor can write anything into the clause. -/
theorem totalCount_eq_matching_iff (h : IsListQuery args) {after before : Option (List Char)}
    {result : ListResult} (hok : resolveList db.pool serde args after before = .ok result) :
    result.totalCount = ((db.relation args.pgSchema args.table).filter
        (db.satisfies (listClause serde args after before))).length ∧
      ((∀ p ∈ decodedCursors serde after before, Tame p.2) →
        (result.totalCount = (matching db args).length ↔ CountsAll db serde args after before)) := by
  refine ⟨totalCount_eq hok, fun htame => ?_⟩
  rw [totalCount_eq hok, Nat.cast_inj, filter_listClause h htame, List.length_filter_eq_length_iff]
  constructor
  · exact fun hall row hrow p hp => List.all_eq_true.mp (hall row hrow) p hp
  · exact fun hmeets row hrow => List.all_eq_true.mpr fun p hp => hmeets row hrow p hp

theorem isListQuery_transfers (dir : OrderDirection) (limit : ℤ) :
    IsListQuery (transferArgs dir limit) :=
  -- the limit does not matter here
  have h := listable_transfers dir (Int.le_refl 1)
  ⟨h.pkCol_mem, h.orderCol_mem, h.quotable, h.filter_fields⟩

/-- The cursor of a transfer. -/
def cursorOf (transfer : String × ℤ) : List Char :=
  rowCursor transferSerde (transferArgs .ASC 2) (transferRow transfer)

/-- The last transfer, in a block of its own, is behind the three that meet the filter. -/
theorem totalCount_eq_matching_iff_before :
    ∃ result, resolveList transferDb.pool transferSerde (transferArgs .ASC 2) none
        (some (cursorOf ("d", 9))) = .ok result ∧ result.totalCount = 3 := by
  have hdecoded : decodedCursors transferSerde none (some (cursorOf ("d", 9))) =
      [('<', transferCursor ("d", 9))] := by
    have hdecode : Pagination.decodeCursor transferSerde.fromStr (cursorOf ("d", 9)) =
        .ok (transferCursor ("d", 9)) := by
      obtain ⟨json, hwrite, hread⟩ := (listable_transfers .ASC (Int.le_refl 1)).roundTrip
        (transferRow ("d", 9)) (List.mem_map.mpr ⟨("d", 9), by decide, rfl⟩)
      exact Pagination.decodeCursor_encodeCursor hwrite hread
    unfold decodedCursors decodedCursor
    dsimp only
    rw [hdecode]
    rfl
  have hvalue : IsOrderValue (transferCursor ("d", 9)).orderVal :=
    .inr (.inr ⟨9, by decide, by decide, rfl⟩)
  have hok : ((resolveList transferDb.pool transferSerde (transferArgs .ASC 2) none
      (some (cursorOf ("d", 9)))).isOk) = true := by decide +kernel
  obtain ⟨result, hresult⟩ : ∃ result, resolveList transferDb.pool transferSerde
      (transferArgs .ASC 2) none (some (cursorOf ("d", 9))) = .ok result := by
    cases hrun : resolveList transferDb.pool transferSerde (transferArgs .ASC 2) none
        (some (cursorOf ("d", 9))) with
    | ok result => exact ⟨result, rfl⟩
    | error e =>
      rw [hrun] at hok
      cases hok
  have hthree : (matching transferDb (transferArgs .ASC 2)).length = 3 := by decide +kernel
  refine ⟨result, hresult, ?_⟩
  rw [← Nat.cast_ofNat, ← hthree]
  have htame : ∀ p ∈ decodedCursors transferSerde none (some (cursorOf ("d", 9))), Tame p.2 := by
    rw [hdecoded, List.forall_mem_singleton]
    refine ⟨by decide, fun text htext => ?_⟩
    rw [← Json.number.inj htext]
    exact isJsonNumber_toString 9
  apply ((totalCount_eq_matching_iff (isListQuery_transfers .ASC 2) hresult).2 htame).mpr
  intro row hrow p hp
  rw [hdecoded] at hp
  have hahead : ∀ row ∈ matching transferDb (transferArgs .ASC 2),
      rowPlace transferDb (transferArgs .ASC 2) row <
        toLex (charRank (.number "9"), charRank (.string "d")) := by decide +kernel
  rw [List.mem_singleton.mp hp]
  exact (meetsCursor_iff (.inr rfl) hvalue row).mpr (hahead row hrow)

/-- Three transfers meet the filter; behind the first of them the total is two. -/
theorem totalCount_ne_matching :
    (matching transferDb (transferArgs .ASC 2)).length = 3 ∧
      (resolveList transferDb.pool transferSerde (transferArgs .ASC 2) none none).toOption.map
        ListResult.totalCount = some 3 ∧
      (resolveList transferDb.pool transferSerde (transferArgs .ASC 2) (some (cursorOf ("b", 1)))
        none).toOption.map ListResult.totalCount = some 2 := by
  decide +kernel

end Resolver

end ForgeIndex
