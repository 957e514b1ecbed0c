import ForgeIndex.Config.Validation
import ForgeIndex.Telemetry.BuildId

/-!
# Applications with one build id

The configuration and the tables are written as JSON texts that say where they end, as long as no
key has a quote; the handler keys are written without anything between them.
-/

namespace ForgeIndex

namespace BuildInput

open Json

variable (keccak256 : Bytes → Hash32)

/-- The handler keys make different sets. -/
def KeysDiffer (a b : BuildInput) : Prop := ∃ key, ¬(key ∈ a.handlerKeys ↔ key ∈ b.handlerKeys)

/-- Two applications differ, as JSON values or in their handler keys. -/
def Differ (a b : BuildInput) : Prop :=
  a.config.toJson keccak256 ≠ b.config.toJson keccak256 ∨
    a.schema.toJson ofFields ≠ b.schema.toJson ofFields ∨ KeysDiffer a b

/-- Other handler keys, which run together to the same text. -/
structure RunTogether (a b : BuildInput) : Prop where
  config : a.config.toJson keccak256 = b.config.toJson keccak256
  schema : a.schema.toJson ofFields = b.schema.toJson ofFields
  keys : KeysDiffer a b
  text : joinKeys a.handlerKeys = joinKeys b.handlerKeys

theorem encode_injective : Function.Injective Utf8.encode :=
  Function.LeftInverse.injective Utf8.decodeLossy_encode

theorem bytes_eq_encode (input : BuildInput) :
    input.bytes keccak256 =
      Utf8.encode (canonicalJson (input.config.toJson keccak256) ++
        (canonicalJson (input.schema.toJson ofFields) ++ joinKeys input.handlerKeys)) := by
  have hkeys : (sortKeys input.handlerKeys).flatMap (fun key => Utf8.encode key.toList) =
      Utf8.encode (joinKeys input.handlerKeys) := by
    unfold joinKeys Utf8.encode
    rw [List.flatMap_assoc]
  have happend (s t : List Char) : Utf8.encode (s ++ t) = Utf8.encode s ++ Utf8.encode t :=
    List.flatMap_append
  rw [bytes, hkeys, happend, happend, List.append_assoc]

theorem RunTogether.bytes_eq {a b : BuildInput} (h : RunTogether keccak256 a b) :
    a.bytes keccak256 = b.bytes keccak256 := by
  rw [bytes_eq_encode, bytes_eq_encode, h.config, h.schema, h.text]

theorem bytes_eq_iff {a b : BuildInput} (ha : a.config.Quoteless) (hb : b.config.Quoteless) :
    a.bytes keccak256 = b.bytes keccak256 ↔
      a.config.toJson keccak256 = b.config.toJson keccak256 ∧
        a.schema.toJson ofFields = b.schema.toJson ofFields ∧
        joinKeys a.handlerKeys = joinKeys b.handlerKeys := by
  rw [bytes_eq_encode, bytes_eq_encode]
  constructor
  · intro h
    have htext := encode_injective h
    -- the configuration ends where the tables begin, these where the keys begin
    have hconfig := canonicalJson_object_inj (Config.plain_toJson keccak256 ha)
      (Config.plain_toJson keccak256 hb) htext
    have hschema := canonicalJson_object_inj (Schema.plain_toJson a.schema)
      (Schema.plain_toJson b.schema) hconfig.2
    exact ⟨hconfig.1, hschema.1, hschema.2⟩
  · intro h
    rw [h.1, h.2.1, h.2.2]

/-- Applications without a quote in a filter's keys get different bytes when they differ, unless
their handler keys run together. -/
theorem bytes_distinguish_iff {a b : BuildInput} (ha : a.config.Quoteless)
    (hb : b.config.Quoteless) :
    (Differ keccak256 a b → a.bytes keccak256 ≠ b.bytes keccak256) ↔
      ¬RunTogether keccak256 a b := by
  constructor
  · intro h htogether
    exact h (Or.inr (Or.inr htogether.keys)) (htogether.bytes_eq keccak256)
  · intro hnot hdiffer hbytes
    obtain ⟨hconfig, hschema, htext⟩ := (bytes_eq_iff keccak256 ha hb).mp hbytes
    rcases hdiffer with hne | hne | hkeys
    · exact hne hconfig
    · exact hne hschema
    · exact hnot ⟨hconfig, hschema, hkeys, htext⟩

/-- A contract with events that have no parameters. -/
def plainContract (name abiJson : String) : Config.Contract where
  name := name
  startBlock := 0
  abiJson := abiJson
  chainNames := ["mainnet"]
  address := .multiple []
  endBlock := none
  filter := none
  includeTransaction := false
  includeTrace := false

/-- The contract `A` has the events `B` and `BA`, the contracts `AB` and `B` have `C`. -/
def threeContracts : List Config.Contract :=
  [plainContract "A"
      ("[\x7b\"type\":\"event\",\"name\":\"B\",\"inputs\":[]\x7d," ++
        "\x7b\"type\":\"event\",\"name\":\"BA\",\"inputs\":[]\x7d]"),
    plainContract "AB" "[\x7b\"type\":\"event\",\"name\":\"C\",\"inputs\":[]\x7d]",
    plainContract "B" "[\x7b\"type\":\"event\",\"name\":\"C\",\"inputs\":[]\x7d]"]

/-- The application with handlers for these events. -/
def withHandlers (keys : List String) : BuildInput where
  config := localConfig none threeContracts
  schema := ⟨[]⟩
  handlerKeys := keys

theorem quoteless_withHandlers (keys : List String) : (withHandlers keys).config.Quoteless := by
  intro c hc fs hfs
  have hnone : ∀ c ∈ threeContracts, c.filter = none := by
    simp [threeContracts, plainContract]
  rw [hnone c hc] at hfs
  cases hfs

theorem joinKeys_pair {k k' : String} (h : k ≤ k') : joinKeys [k, k'] = k.toList ++ k'.toList := by
  unfold joinKeys sortKeys
  rw [List.mergeSort_of_pairwise (by simp [h])]
  simp

theorem bytes_distinguish_iff_pair :
    (Differ (fun _ => Hash32.zero) (withHandlers ["A:B", "B:C"]) (withHandlers ["A:B", "AB:C"]) →
      (withHandlers ["A:B", "B:C"]).bytes (fun _ => Hash32.zero) ≠
        (withHandlers ["A:B", "AB:C"]).bytes fun _ => Hash32.zero) ↔
    ¬RunTogether (fun _ => Hash32.zero) (withHandlers ["A:B", "B:C"])
      (withHandlers ["A:B", "AB:C"]) :=
  bytes_distinguish_iff _ (quoteless_withHandlers _) (quoteless_withHandlers _)

/-- Handlers for `A:B` and `AB:C` and handlers for `A:BA` and `B:C`. -/
theorem bytes_not_distinguish :
    ¬∀ (keccak256 : Bytes → Hash32) (a b : BuildInput), Differ keccak256 a b →
      a.bytes keccak256 ≠ b.bytes keccak256 := by
  intro h
  have hkeys : KeysDiffer (withHandlers ["A:B", "AB:C"]) (withHandlers ["A:BA", "B:C"]) :=
    ⟨"A:B", by decide⟩
  have htext : joinKeys ["A:B", "AB:C"] = joinKeys ["A:BA", "B:C"] := by
    rw [joinKeys_pair (by decide), joinKeys_pair (by decide)]
    rfl
  apply h (fun _ => Hash32.zero) (withHandlers ["A:B", "AB:C"]) (withHandlers ["A:BA", "B:C"])
  · exact Or.inr (Or.inr hkeys)
  · exact RunTogether.bytes_eq _ ⟨rfl, rfl, hkeys, htext⟩

end BuildInput

end ForgeIndex
