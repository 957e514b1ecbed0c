import Mathlib.Data.String.Basic
import ForgeIndex.Db.Postgres
import ForgeIndex.Lib.IndexMap
import ForgeIndex.Lib.SortedMap

/-!
# Values of the GraphQL API

The conversions of `forge-index-api/src/graphql/schema_gen.rs` between the values of `serde_json` and
those of GraphQL.  Numbers are kept as `serde_json` keeps them, in three kinds of which the last one
is a float; both conversions ask for an `i64` first and for a float next.
-/

namespace ForgeIndex

/-- `serde_json::Number`, which is also the number of `async_graphql`. -/
inductive Number where
  | posInt (n : UInt64)
  | negInt (i : Int64) (negative : i < 0)
  | float (f : Float) (finite : f.isFinite = true)

namespace Number

def asI64 : Number → Option Int64
  | posInt n => if n.toNat < 2 ^ 63 then some n.toInt64 else none
  | negInt i _ => some i
  | float _ _ => none

/-- `as_f64`, which answers for every kind. -/
def asF64 : Number → Option Float
  | posInt n => some n.toFloat
  | negInt i _ => some i.toFloat
  | float f _ => some f

/-- `From<i64>`. -/
def ofI64 (i : Int64) : Number := if h : i < 0 then negInt i h else posInt i.toUInt64

def fromF64 (f : Float) : Option Number := if h : f.isFinite = true then some (float f h) else none

def display : Number → String
  | posInt n => toString n
  | negInt i _ => toString i
  | float f _ => toString f

/-- The integer that the number is, if it is none of the floats. -/
def int? : Number → Option ℤ
  | posInt n => some n.toNat
  | negInt i _ => some i.toInt
  | float _ _ => none

/-- A conversion takes the number by its float. -/
def ThroughFloat (n : Number) : Prop := n.asI64 = none ∧ n.asF64.isSome

end Number

/-- `serde_json::Value`; the members of an object in the order of the map. -/
inductive JsonValue where
  | null
  | bool (b : Bool)
  | number (n : Number)
  | string (s : String)
  | array (items : List JsonValue)
  | object (members : List (String × JsonValue))

/-- `async_graphql::Value`. -/
inductive GqlValue where
  | null
  | number (n : Number)
  | string (s : String)
  | boolean (b : Bool)
  | binary (b : List UInt8)
  | enum (name : String)
  | list (items : List GqlValue)
  | object (members : List (String × GqlValue))

mutual

def jsonToGqlValue : JsonValue → GqlValue
  | .null => .null
  | .bool b => .boolean b
  | .number n =>
    match n.asI64 with
    | some i => .number (.ofI64 i)
    | none =>
      match n.asF64 with
      | some f => .number ((Number.fromF64 f).getD (.ofI64 0))
      | none => .string n.display
  | .string s => .string s
  | .array arr => .list (jsonItems arr)
  | .object obj => .object (IndexMap.empty.insertAll (jsonMembers obj)).entries

def jsonItems : List JsonValue → List GqlValue
  | [] => []
  | v :: vs => jsonToGqlValue v :: jsonItems vs

def jsonMembers : List (String × JsonValue) → List (String × GqlValue)
  | [] => []
  | (k, v) :: ms => (k, jsonToGqlValue v) :: jsonMembers ms

end

mutual

/-- `gql_value_to_json`; a float that is not finite would be `null`. -/
def gqlValueToJson : GqlValue → JsonValue
  | .null => .null
  | .enum e => .string e
  | .string s => .string s
  | .boolean b => .bool b
  | .number n =>
    match n.asI64 with
    | some i => .number (.ofI64 i)
    | none =>
      match n.asF64 with
      | some f => ((Number.fromF64 f).map JsonValue.number).getD .null
      | none => .string n.display
  | .list arr => .array (gqlItems arr)
  | .object obj => .object (SortedMap.collect (gqlMembers obj))
  | .binary b => .string (String.ofList (Hex.encode b))

def gqlItems : List GqlValue → List JsonValue
  | [] => []
  | v :: vs => gqlValueToJson v :: gqlItems vs

def gqlMembers : List (String × GqlValue) → List (String × JsonValue)
  | [] => []
  | (k, v) :: ms => (k, gqlValueToJson v) :: gqlMembers ms

end

mutual

/-- The numbers of a value, in order. -/
def JsonValue.numbers : JsonValue → List Number
  | .number n => [n]
  | .array items => itemNumbers items
  | .object members => memberNumbers members
  | _ => []

def JsonValue.itemNumbers : List JsonValue → List Number
  | [] => []
  | v :: vs => v.numbers ++ itemNumbers vs

def JsonValue.memberNumbers : List (String × JsonValue) → List Number
  | [] => []
  | (_, v) :: ms => v.numbers ++ memberNumbers ms

end

mutual

def GqlValue.numbers : GqlValue → List Number
  | .number n => [n]
  | .list items => itemNumbers items
  | .object members => memberNumbers members
  | _ => []

def GqlValue.itemNumbers : List GqlValue → List Number
  | [] => []
  | v :: vs => v.numbers ++ itemNumbers vs

def GqlValue.memberNumbers : List (String × GqlValue) → List Number
  | [] => []
  | (_, v) :: ms => v.numbers ++ memberNumbers ms

end

mutual

/-- The members of each object are in the order of their keys, no key twice, as a map of
`serde_json` keeps them. -/
def JsonValue.WellFormed : JsonValue → Prop
  | .array items => itemsWellFormed items
  | .object members => SortedMap.Sorted members ∧ membersWellFormed members
  | _ => True

def JsonValue.itemsWellFormed : List JsonValue → Prop
  | [] => True
  | v :: vs => v.WellFormed ∧ itemsWellFormed vs

def JsonValue.membersWellFormed : List (String × JsonValue) → Prop
  | [] => True
  | (_, v) :: ms => v.WellFormed ∧ membersWellFormed ms

end

theorem JsonValue.nested {P : JsonValue → Prop} (null : P .null) (bool : ∀ b, P (.bool b))
    (number : ∀ n, P (.number n)) (string : ∀ s, P (.string s))
    (array : ∀ items, (∀ v ∈ items, P v) → P (.array items))
    (object : ∀ members, (∀ p ∈ members, P p.2) → P (.object members)) (v : JsonValue) : P v :=
  @JsonValue.rec P (fun items => ∀ v ∈ items, P v) (fun members => ∀ p ∈ members, P p.2)
    (fun p => P p.2) null bool number string array object
    (fun _ h => absurd h List.not_mem_nil)
    (fun _ _ hv hvs => List.forall_mem_cons.mpr ⟨hv, hvs⟩)
    (fun _ h => absurd h List.not_mem_nil)
    (fun _ _ hp hps => List.forall_mem_cons.mpr ⟨hp, hps⟩)
    (fun _ _ hv => hv) v

theorem jsonItems_eq (vs : List JsonValue) : jsonItems vs = vs.map jsonToGqlValue := by
  induction vs with
  | nil => rfl
  | cons v vs ih => rw [jsonItems, ih, List.map_cons]

theorem jsonMembers_eq (ms : List (String × JsonValue)) :
    jsonMembers ms = ms.map fun p => (p.1, jsonToGqlValue p.2) := by
  induction ms with
  | nil => rfl
  | cons p ms ih => rw [jsonMembers, ih, List.map_cons]

theorem gqlItems_eq (vs : List GqlValue) : gqlItems vs = vs.map gqlValueToJson := by
  induction vs with
  | nil => rfl
  | cons v vs ih => rw [gqlItems, ih, List.map_cons]

theorem gqlMembers_eq (ms : List (String × GqlValue)) :
    gqlMembers ms = ms.map fun p => (p.1, gqlValueToJson p.2) := by
  induction ms with
  | nil => rfl
  | cons p ms ih => rw [gqlMembers, ih, List.map_cons]

namespace JsonValue

theorem itemNumbers_eq (vs : List JsonValue) : itemNumbers vs = vs.flatMap numbers := by
  induction vs with
  | nil => rfl
  | cons v vs ih => rw [itemNumbers, ih, List.flatMap_cons]

theorem memberNumbers_eq (ms : List (String × JsonValue)) :
    memberNumbers ms = ms.flatMap fun p => p.2.numbers := by
  induction ms with
  | nil => rfl
  | cons p ms ih => rw [memberNumbers, ih, List.flatMap_cons]

theorem itemsWellFormed_iff (vs : List JsonValue) :
    itemsWellFormed vs ↔ ∀ v ∈ vs, v.WellFormed := by
  induction vs with
  | nil => simp [itemsWellFormed]
  | cons v vs ih => rw [itemsWellFormed, ih, List.forall_mem_cons]

theorem membersWellFormed_iff (ms : List (String × JsonValue)) :
    membersWellFormed ms ↔ ∀ p ∈ ms, p.2.WellFormed := by
  induction ms with
  | nil => simp [membersWellFormed]
  | cons p ms ih => rw [membersWellFormed, ih, List.forall_mem_cons]

end JsonValue

namespace GqlValue

theorem itemNumbers_eq (vs : List GqlValue) : itemNumbers vs = vs.flatMap numbers := by
  induction vs with
  | nil => rfl
  | cons v vs ih => rw [itemNumbers, ih, List.flatMap_cons]

theorem memberNumbers_eq (ms : List (String × GqlValue)) :
    memberNumbers ms = ms.flatMap fun p => p.2.numbers := by
  induction ms with
  | nil => rfl
  | cons p ms ih => rw [memberNumbers, ih, List.flatMap_cons]

end GqlValue

theorem jsonToGqlValue_object {ms : List (String × JsonValue)} (h : SortedMap.Sorted ms) :
    jsonToGqlValue (.object ms) = .object (ms.map fun p => (p.1, jsonToGqlValue p.2)) := by
  have hkeys : (jsonMembers ms).map Prod.fst = ms.map Prod.fst := by
    rw [jsonMembers_eq, List.map_map]
    rfl
  have hnodup : ((jsonMembers ms).map Prod.fst).Nodup := by
    rw [hkeys]
    exact h.nodup
  rw [jsonToGqlValue, IndexMap.entries_insertAll hnodup fun _ _ => List.not_mem_nil, jsonMembers_eq]
  rfl

theorem gqlValueToJson_object {ms : List (String × GqlValue)} (h : SortedMap.Sorted ms) :
    gqlValueToJson (.object ms) = .object (ms.map fun p => (p.1, gqlValueToJson p.2)) := by
  have hsorted : SortedMap.Sorted (gqlMembers ms) := by
    unfold SortedMap.Sorted
    rw [gqlMembers_eq, List.map_map]
    exact h
  rw [gqlValueToJson, SortedMap.collect_of_sorted hsorted, gqlMembers_eq]

namespace Number

theorem asI64_posInt (n : UInt64) :
    (posInt n).asI64 = if n.toNat < 2 ^ 63 then some n.toInt64 else none := rfl

theorem isSome_asI64_iff {n : Number} {i : ℤ} (h : n.int? = some i) :
    n.asI64.isSome ↔ i < 2 ^ 63 := by
  cases n with
  | posInt n =>
    have hi : (n.toNat : ℤ) = i := Option.some.inj h
    rw [asI64_posInt]
    split_ifs with hn
    · exact iff_of_true rfl (by omega)
    · exact iff_of_false (by simp) (by omega)
  | negInt j negative =>
    have hi : j.toInt = i := Option.some.inj h
    have hlt : j.toInt < 2 ^ 63 := j.toInt_lt
    exact iff_of_true rfl (by omega)
  | float f finite => cases h

theorem ofI64_of_asI64 {n : Number} {i : Int64} (h : n.asI64 = some i) : ofI64 i = n := by
  cases n with
  | posInt n =>
    rw [asI64_posInt] at h
    split_ifs at h with hn
    obtain rfl := Option.some.inj h
    have hpos : ¬n.toInt64 < 0 := by
      rw [Int64.lt_iff_toInt_lt, toInt_toInt64 hn]
      exact not_lt.mpr (Int.natCast_nonneg _)
    unfold ofI64
    rw [dif_neg hpos, UInt64.toUInt64_toInt64]
  | negInt j negative =>
    obtain rfl := Option.some.inj h
    unfold ofI64
    rw [dif_pos negative]
  | float f finite => cases h

end Number

theorem jsonToGqlValue_number {n : Number} (h : n.asI64.isSome) :
    jsonToGqlValue (.number n) = .number n := by
  obtain ⟨i, hi⟩ := Option.isSome_iff_exists.mp h
  rw [jsonToGqlValue, hi]
  exact congrArg GqlValue.number (Number.ofI64_of_asI64 hi)

theorem gqlValueToJson_number {n : Number} (h : n.asI64.isSome) :
    gqlValueToJson (.number n) = .number n := by
  obtain ⟨i, hi⟩ := Option.isSome_iff_exists.mp h
  rw [gqlValueToJson, hi]
  exact congrArg JsonValue.number (Number.ofI64_of_asI64 hi)

theorem numbers_jsonToGqlValue {v : JsonValue} (h : v.WellFormed) :
    ∀ n ∈ (jsonToGqlValue v).numbers, n.asI64.isSome ∨ n.int? = none := by
  induction v using JsonValue.nested with
  | null => exact fun n hn => absurd hn List.not_mem_nil
  | bool b => exact fun n hn => absurd hn List.not_mem_nil
  | string s => exact fun n hn => absurd hn List.not_mem_nil
  | number m =>
    intro n hn
    by_cases hm : m.asI64.isSome
    · rw [jsonToGqlValue_number hm] at hn
      rw [List.mem_singleton.mp hn]
      exact .inl hm
    · rw [Option.not_isSome_iff_eq_none] at hm
      cases hf : m.asF64 with
      | none =>
        rw [jsonToGqlValue, hm, hf] at hn
        cases hn
      | some f =>
        rw [jsonToGqlValue, hm, hf] at hn
        rw [List.mem_singleton.mp hn]
        unfold Number.fromF64
        split_ifs
        · exact .inr rfl
        · exact .inl rfl
  | array items ih =>
    intro n hn
    rw [jsonToGqlValue, jsonItems_eq, GqlValue.numbers, GqlValue.itemNumbers_eq,
      List.flatMap_map] at hn
    obtain ⟨v, hv, hn⟩ := List.mem_flatMap.mp hn
    exact ih v hv ((JsonValue.itemsWellFormed_iff items).mp h v hv) n hn
  | object members ih =>
    intro n hn
    rw [jsonToGqlValue_object h.1, GqlValue.numbers, GqlValue.memberNumbers_eq,
      List.flatMap_map] at hn
    obtain ⟨p, hp, hn⟩ := List.mem_flatMap.mp hn
    exact ih p hp ((JsonValue.membersWellFormed_iff members).mp h.2 p hp) n hn

theorem survives_of_asI64 {v : JsonValue} (h : v.WellFormed)
    (hall : ∀ n ∈ v.numbers, n.asI64.isSome) :
    (jsonToGqlValue v).numbers = v.numbers ∧ gqlValueToJson (jsonToGqlValue v) = v := by
  induction v using JsonValue.nested with
  | null => exact ⟨rfl, rfl⟩
  | bool b => exact ⟨rfl, rfl⟩
  | string s => exact ⟨rfl, rfl⟩
  | number n =>
    have hn := hall n (List.mem_singleton_self n)
    rw [jsonToGqlValue_number hn, gqlValueToJson_number hn]
    exact ⟨rfl, rfl⟩
  | array items ih =>
    have hitems : ∀ v ∈ items, (jsonToGqlValue v).numbers = v.numbers ∧
        gqlValueToJson (jsonToGqlValue v) = v := by
      intro v hv
      apply ih v hv ((JsonValue.itemsWellFormed_iff items).mp h v hv)
      intro n hn
      apply hall
      rw [JsonValue.numbers, JsonValue.itemNumbers_eq]
      exact List.mem_flatMap.mpr ⟨v, hv, hn⟩
    rw [jsonToGqlValue, gqlValueToJson, GqlValue.numbers, JsonValue.numbers, jsonItems_eq,
      gqlItems_eq, GqlValue.itemNumbers_eq, JsonValue.itemNumbers_eq, List.flatMap_map,
      List.map_map]
    constructor
    · exact List.flatMap_congr fun v hv => (hitems v hv).1
    · exact congrArg JsonValue.array
        ((List.map_congr_left fun v hv => (hitems v hv).2).trans (List.map_id items))
  | object members ih =>
    have hmembers : ∀ p ∈ members, (jsonToGqlValue p.2).numbers = p.2.numbers ∧
        gqlValueToJson (jsonToGqlValue p.2) = p.2 := by
      intro p hp
      apply ih p hp ((JsonValue.membersWellFormed_iff members).mp h.2 p hp)
      intro n hn
      apply hall
      rw [JsonValue.numbers, JsonValue.memberNumbers_eq]
      exact List.mem_flatMap.mpr ⟨p, hp, hn⟩
    have hsorted : SortedMap.Sorted (members.map fun p => (p.1, jsonToGqlValue p.2)) := by
      unfold SortedMap.Sorted
      rw [List.map_map]
      exact h.1
    rw [jsonToGqlValue_object h.1, gqlValueToJson_object hsorted, GqlValue.numbers,
      JsonValue.numbers, GqlValue.memberNumbers_eq, JsonValue.memberNumbers_eq, List.flatMap_map,
      List.map_map]
    constructor
    · exact List.flatMap_congr fun p hp => (hmembers p hp).1
    · refine congrArg JsonValue.object
        ((List.map_congr_left fun p hp => ?_).trans (List.map_id members))
      exact Prod.ext rfl (hmembers p hp).2

/-- The numbers arrive as they are, the value comes back, and no number is taken by its float. -/
structure IntegersSurvive (v : JsonValue) : Prop where
  kept : (jsonToGqlValue v).numbers = v.numbers
  roundTrip : gqlValueToJson (jsonToGqlValue v) = v
  direct : ∀ n ∈ v.numbers, ¬n.ThroughFloat
  directBack : ∀ n ∈ (jsonToGqlValue v).numbers, ¬n.ThroughFloat

/-- The integers of a value survive if and only if none of them is greater than the greatest
`i64`. -/
theorem integersSurvive_iff {v : JsonValue} (h : v.WellFormed)
    (hint : ∀ n ∈ v.numbers, n.int?.isSome) :
    IntegersSurvive v ↔ ∀ n ∈ v.numbers, ∀ i, n.int? = some i → i < 2 ^ 63 := by
  constructor
  · intro hsurvive n hn i hi
    rw [← hsurvive.kept] at hn
    rcases numbers_jsonToGqlValue h n hn with hsome | hnone
    · exact (Number.isSome_asI64_iff hi).mp hsome
    · rw [hnone] at hi
      cases hi
  · intro hall
    have hasI64 : ∀ n ∈ v.numbers, n.asI64.isSome := by
      intro n hn
      obtain ⟨i, hi⟩ := Option.isSome_iff_exists.mp (hint n hn)
      exact (Number.isSome_asI64_iff hi).mpr (hall n hn i hi)
    have hdirect : ∀ n ∈ v.numbers, ¬n.ThroughFloat := by
      intro n hn hfloat
      have hsome := hasI64 n hn
      rw [hfloat.1] at hsome
      cases hsome
    obtain ⟨hkept, hround⟩ := survives_of_asI64 h hasI64
    exact ⟨hkept, hround, hdirect, by rw [hkept]; exact hdirect⟩

/-- `{ "balances": [5, -7], "supply": 9223372036854775807 }`. -/
theorem integersSurvive_iff_supply :
    IntegersSurvive (.object
      [("balances", .array [.number (.posInt 5), .number (.negInt (-7) (by decide))]),
        ("supply", .number (.posInt 9223372036854775807))]) := by
  refine (integersSurvive_iff ?_ ?_).mpr ?_
  · have hkeys : ["balances", "supply"].Pairwise (· < ·) := by decide
    exact ⟨hkeys, ⟨trivial, trivial, trivial⟩, trivial, trivial⟩
  · decide
  · intro n hn i hi
    have hnumbers : n = .posInt 5 ∨ n = .negInt (-7) (by decide) ∨
        n = .posInt 9223372036854775807 := by
      simpa [JsonValue.numbers, JsonValue.memberNumbers, JsonValue.itemNumbers] using hn
    rcases hnumbers with rfl | rfl | rfl
    all_goals
      cases hi
      decide

/-- A supply of 9999999999999999999 arrives as another number. -/
theorem integer_not_survives :
    let v : JsonValue := .number (.posInt 9999999999999999999)
    (jsonToGqlValue v).numbers ≠ v.numbers ∧ ¬IntegersSurvive v := by
  intro v
  have hnumbers : (jsonToGqlValue v).numbers ≠ v.numbers := by
    intro h
    have hfloat := List.cons.inj h
    unfold Number.fromF64 at hfloat
    split_ifs at hfloat
    · cases hfloat.1
    · cases hfloat.1
  exact ⟨hnumbers, fun h => hnumbers h.kept⟩

end ForgeIndex
