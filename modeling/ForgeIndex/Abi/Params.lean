import ForgeIndex.Abi.Hostile

/-!
# The parameters of a decoded event

The decoder gives an event's values as a map under the names of its inputs, and the parser gives
an input without a name the empty one.
-/

namespace ForgeIndex

/-- The event that the ABI has for a log. -/
def ParsedAbi.eventOfLog (abi : ParsedAbi) (log : Log) : Option AbiEvent :=
  log.topics.head?.bind abi.eventOf

/-- The values of the inputs, one after the other, before they go into a map. -/
def inputValues (a : Allocator) (log : Log) : List AbiParam → ℕ → ℕ → Decode (List DecodedParam)
  | [], _, _ => .ok []
  | .mk name t indexed :: inputs, topicIdx, dataOffset =>
    if indexed then
      match log.topics[topicIdx]? with
      | none => mismatch ("missing topic for indexed param '" ++ name ++ "'")
      | some topic => do
        let value ← decodeIndexedParam t topic
        let values ← inputValues a log inputs (topicIdx + 1) dataOffset
        .ok (value :: values)
    else do
      let (value, consumed) ← decodeParamFromData a t log.data dataOffset
      let next ← add dataOffset consumed
      let values ← inputValues a log inputs topicIdx next
      .ok (value :: values)

/-- There is an entry for each input, and the entry at each place has the value decoded for the
input at that place. -/
def KeepsValues (a : Allocator) (log : Log) (inputs : List AbiParam)
    (params : IndexMap String DecodedParam) : Prop :=
  params.entries.length = inputs.length ∧
    ∃ values, inputValues a log inputs 1 0 = .ok values ∧
      ∀ i, i < inputs.length → (params.entries[i]?).map Prod.snd = values[i]?

/-- The loop of `decode` puts the values of the inputs into its map, one after the other. -/
theorem decodeInputs_eq (a : Allocator) (log : Log) (inputs : List AbiParam)
    (params : IndexMap String DecodedParam) (topicIdx dataOffset : ℕ) :
    decodeInputs a log inputs params topicIdx dataOffset = (do
      let values ← inputValues a log inputs topicIdx dataOffset
      .ok (params.insertAll ((inputs.map AbiParam.name).zip values))) := by
  induction inputs generalizing params topicIdx dataOffset with
  | nil => rfl
  | cons p inputs ih =>
    obtain ⟨name, t, indexed⟩ := p
    rw [decodeInputs, inputValues]
    cases indexed with
    | true =>
      rw [if_pos rfl, if_pos rfl]
      cases log.topics[topicIdx]? with
      | none => rfl
      | some topic =>
        dsimp only
        cases decodeIndexedParam t topic with
        | error e => rfl
        | ok value =>
          rw [ok_bind, ok_bind, ih]
          cases inputValues a log inputs (topicIdx + 1) dataOffset <;> rfl
    | false =>
      rw [if_neg (by simp), if_neg (by simp)]
      cases decodeParamFromData a t log.data dataOffset with
      | error e => rfl
      | ok r =>
        rw [ok_bind, ok_bind]
        dsimp only
        cases add dataOffset r.2 with
        | error e => rfl
        | ok next =>
          rw [ok_bind, ok_bind, ih]
          cases inputValues a log inputs topicIdx next <;> rfl

theorem length_inputValues {a : Allocator} {log : Log} {inputs : List AbiParam} {topicIdx dataOffset : ℕ}
    {values : List DecodedParam} (h : inputValues a log inputs topicIdx dataOffset = .ok values) :
    values.length = inputs.length := by
  induction inputs generalizing topicIdx dataOffset values with
  | nil =>
    cases h
    rfl
  | cons p inputs ih =>
    obtain ⟨name, t, indexed⟩ := p
    rw [inputValues] at h
    cases indexed with
    | true =>
      rw [if_pos rfl] at h
      cases htopic : log.topics[topicIdx]? with
      | none =>
        rw [htopic] at h
        cases h
      | some topic =>
        rw [htopic] at h
        obtain ⟨value, -, hvalues⟩ := bind_eq_ok.mp h
        obtain ⟨rest, hrest, heq⟩ := bind_eq_ok.mp hvalues
        cases heq
        rw [List.length_cons, List.length_cons, ih hrest]
    | false =>
      rw [if_neg (by simp)] at h
      obtain ⟨r, -, hvalues⟩ := bind_eq_ok.mp h
      obtain ⟨next, -, hvalues⟩ := bind_eq_ok.mp hvalues
      obtain ⟨rest, hrest, heq⟩ := bind_eq_ok.mp hvalues
      cases heq
      rw [List.length_cons, List.length_cons, ih hrest]

/-- What a decoded event carries: the map built from the values of the inputs of its event. -/
theorem LogDecoder.params_of_decode {a : Allocator} {abi : ParsedAbi} {log : Log}
    {contractName : String} {r : DecodedEvent} {e : AbiEvent} (he : abi.eventOfLog log = some e)
    (hr : (LogDecoder.new abi).decodeWith a log contractName = .ok r) :
    ∃ values, inputValues a log e.inputs 1 0 = .ok values ∧
      r.params = IndexMap.empty.insertAll ((e.inputs.map AbiParam.name).zip values) := by
  unfold ParsedAbi.eventOfLog at he
  cases htopics : log.topics with
  | nil =>
    rw [htopics] at he
    cases he
  | cons selector topics =>
    rw [htopics] at he
    rw [LogDecoder.decode_of_event htopics he, decodeInputs_eq] at hr
    cases hvalues : inputValues a log e.inputs 1 0 with
    | error f =>
      rw [hvalues] at hr
      cases hr
    | ok values =>
      rw [hvalues] at hr
      cases hr
      exact ⟨values, rfl, rfl⟩

/-- No parameter is lost exactly when no two inputs of the event have one name. -/
theorem decode_keeps_iff {a : Allocator} {abi : ParsedAbi} {log : Log} {e : AbiEvent}
    (he : abi.eventOfLog log = some e) {contractName : String} {r : DecodedEvent}
    (hr : (LogDecoder.new abi).decodeWith a log contractName = .ok r) :
    KeepsValues a log e.inputs r.params ↔ (e.inputs.map AbiParam.name).Nodup := by
  obtain ⟨values, hvalues, hparams⟩ := LogDecoder.params_of_decode he hr
  have hlen : values.length = e.inputs.length := length_inputValues hvalues
  have hnames : ((e.inputs.map AbiParam.name).zip values).map Prod.fst =
      e.inputs.map AbiParam.name := by
    apply List.map_fst_zip
    rw [List.length_map, hlen]
  have hcount : ((e.inputs.map AbiParam.name).zip values).length = e.inputs.length := by
    rw [List.length_zip, List.length_map, hlen, min_self]
  have hfresh : ∀ entry ∈ (e.inputs.map AbiParam.name).zip values,
      entry.1 ∉ (IndexMap.empty : IndexMap String DecodedParam).keys :=
    fun _ _ => List.not_mem_nil
  constructor
  · -- a name that comes twice leaves fewer entries than inputs
    intro hkeeps
    by_contra hdup
    have hlt : r.params.entries.length <
        0 + ((e.inputs.map AbiParam.name).zip values).length := by
      rw [hparams]
      exact IndexMap.length_insertAll_lt fun h => hdup (hnames ▸ h.1)
    have hall := hkeeps.1
    omega
  · intro hnodup
    have hentries := IndexMap.entries_insertAll (hnames.symm ▸ hnodup) hfresh
    rw [← hparams] at hentries
    have hsnd : r.params.entries.map Prod.snd = values := by
      rw [hentries, List.map_append]
      exact List.map_snd_zip (by rw [List.length_map, hlen])
    refine ⟨?_, values, hvalues, ?_⟩
    · rw [← hlen, ← hsnd, List.length_map]
    · intro i _
      rw [← List.getElem?_map, hsnd]

/-- `[{"type": "event", "name": "Pair", "inputs": [..]}]` with two inputs of type `uint256`, each
with the further members given for it. -/
def pairJson (left right : List Member) : List Json :=
  [.object [.mk "type" (.string "event"), .mk "name" (.string "Pair"), .mk "inputs" (.array
    [.object (.mk "type" (.string "uint256") :: left),
      .object (.mk "type" (.string "uint256") :: right)])]]

def pairEvent (left right : String) : AbiEvent where
  name := "Pair"
  signature := "Pair(uint256,uint256)"
  selector := Hash32.zero
  inputs := [.mk left (.uint 256) false, .mk right (.uint 256) false]

theorem parseAbi_pair : parseAbi (fun _ => .ok (pairJson [] [])) (fun _ => Hash32.zero) "" =
    .ok ⟨[pairEvent "" ""], []⟩ := by
  rfl

def pairLog : Log := blobLog (HeadTail.word 1 ++ HeadTail.word 2)

theorem decode_keeps_iff_pair :
    ∃ r, (LogDecoder.new ⟨[pairEvent "left" "right"], []⟩).decode pairLog "Pool" = .ok r ∧
      KeepsValues .roomy pairLog (pairEvent "left" "right").inputs r.params := by
  have hevent : ParsedAbi.eventOfLog ⟨[pairEvent "left" "right"], []⟩ pairLog =
      some (pairEvent "left" "right") := rfl
  have hdecode : (LogDecoder.new ⟨[pairEvent "left" "right"], []⟩).decode pairLog "Pool" =
      .ok ⟨"Pair", "Pool",
        (IndexMap.empty.insert "left" (.uint256 "1")).insert "right" (.uint256 "2"), pairLog⟩ := rfl
  exact ⟨_, hdecode, (decode_keeps_iff hevent hdecode).mpr (by decide)⟩

/-- Two inputs without names share the empty one, and the first value is replaced by the
second. -/
theorem decode_not_keeps :
    ¬∀ (fromStr : String → Except String (List Json)) (keccak256 : Bytes → Hash32) (json : String)
      (abi : ParsedAbi) (log : Log) (e : AbiEvent) (contractName : String) (r : DecodedEvent),
      parseAbi fromStr keccak256 json = .ok abi → abi.eventOfLog log = some e →
      (LogDecoder.new abi).decode log contractName = .ok r → KeepsValues .roomy log e.inputs r.params := by
  intro h
  have hkeeps := h _ _ _ _ pairLog (pairEvent "" "") "Pool"
    ⟨"Pair", "Pool", IndexMap.empty.insert "" (.uint256 "2"), pairLog⟩ parseAbi_pair rfl rfl
  exact absurd hkeeps.1 (by decide)

end ForgeIndex
