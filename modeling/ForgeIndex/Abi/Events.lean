import ForgeIndex.Abi.Parser
import ForgeIndex.Abi.RoundTrip
import ForgeIndex.Lib.Filling

/-!
# Logs of an event

The log that a contract emits for an event, and what the decoder makes of it.
-/

namespace ForgeIndex

open HeadTail (Part Laid layout laid_layout)

/-- The event that the ABI lists last under a selector. -/
def ParsedAbi.eventOf (abi : ParsedAbi) (selector : Hash32) : Option AbiEvent :=
  abi.events.reverse.find? fun e => e.selector = selector

theorem LogDecoder.events_new (abi : ParsedAbi) (selector : Hash32) :
    (LogDecoder.new abi).events selector = abi.eventOf selector :=
  Filling.table_apply AbiEvent.selector abi.events selector

theorem LogDecoder.decode_of_event {a : Allocator} {abi : ParsedAbi} {log : Log}
    {selector : Hash32} {topics : List Hash32} {e : AbiEvent} {contractName : String}
    (htopics : log.topics = selector :: topics) (he : abi.eventOf selector = some e) :
    (LogDecoder.new abi).decodeWith a log contractName = (do
      let params ← decodeInputs a log e.inputs IndexMap.empty 1 0
      .ok ⟨e.name, contractName, params, log⟩) := by
  rw [LogDecoder.decodeWith, htopics]
  dsimp only
  rw [LogDecoder.events_new, he]

section Emit

variable (digest : AbiType → AbiValue → Hash32)

/-- The topic of an indexed input: the word of a value type, the digest of any other value. -/
def topicOf (t : AbiType) (v : AbiValue) : Hash32 :=
  if h : t.isWord = true ∧ (encode t v).length = 32 then ⟨encode t v, h.2⟩ else digest t v

def eventTopics : List AbiParam → List AbiValue → List Hash32
  | .mk _ t indexed :: ps, v :: vs =>
    if indexed then topicOf digest t v :: eventTopics ps vs else eventTopics ps vs
  | _, _ => []

def eventParts : List AbiParam → List AbiValue → List Part
  | .mk _ t indexed :: ps, v :: vs =>
    if indexed then eventParts ps vs else (t.isDynamic, encode t v) :: eventParts ps vs
  | _, _ => []

/-- One entry for each input, in their order. -/
def eventEntries : List AbiParam → List AbiValue → List (String × DecodedParam)
  | .mk name t indexed :: ps, v :: vs =>
    (name, if indexed && !t.isWord then .fixedBytes (digest t v).bytes else decoded t v) ::
      eventEntries ps vs
  | _, _ => []

/-- A log of the event `e` with the arguments `vs`. -/
structure Emitted (e : AbiEvent) (vs : List AbiValue) (log : Log) : Prop where
  topics : log.topics = e.selector :: eventTopics digest e.inputs vs
  data : log.data = layout (eventParts e.inputs vs)

end Emit

/-- The one-word value types other than the signed integers. -/
def FlatWord : AbiType → Prop
  | .uint bits => Width bits
  | .address => True
  | .bool => True
  | .fixedBytes n => 1 ≤ n ∧ n ≤ 32
  | _ => False

/-- One-word value types, bytes, strings, arrays and fixed arrays of words, tuples of words. -/
def Flat : AbiType → Prop
  | .bytes => True
  | .string => True
  | .array inner => FlatWord inner
  | .fixedArray inner _ => FlatWord inner
  | .tuple params => ∀ p ∈ params, FlatWord p.abiType
  | t => FlatWord t

theorem FlatWord.spec {t : AbiType} (h : FlatWord t) : t.isWord = true ∧ t.isDynamic = false ∧
    t.headSize = 32 ∧ t.consumed = 32 ∧ ∀ bits, t ≠ .int bits := by
  cases t <;> first | exact h.elim | exact ⟨rfl, rfl, rfl, rfl, by simp⟩

theorem Flat.word {t : AbiType} (h : Flat t) (hword : t.isWord = true) : FlatWord t := by
  cases t <;> first | exact h | cases hword

theorem headSizes_flat {params : List AbiParam} (h : ∀ p ∈ params, FlatWord p.abiType) :
    AbiType.anyDynamic params = false ∧ AbiType.headSizes params = 32 * params.length ∧
      AbiType.consumedAll params = 32 * params.length := by
  induction params with
  | nil => exact ⟨rfl, rfl, rfl⟩
  | cons p ps ih =>
    obtain ⟨name, t, indexed⟩ := p
    obtain ⟨-, hdyn, hsize, hconsumed, -⟩ := (h _ List.mem_cons_self).spec
    obtain ⟨hdyns, hsizes, hconsumeds⟩ := ih fun p hp => h p (List.mem_cons_of_mem _ hp)
    simp only [AbiParam.abiType_mk] at hdyn hsize hconsumed
    rw [AbiType.anyDynamic, AbiType.headSizes, AbiType.consumedAll, hdyn, hdyns, hsize, hsizes,
      hconsumed, hconsumeds, List.length_cons]
    refine ⟨rfl, ?_, ?_⟩ <;> omega

theorem Flat.consumed {t : AbiType} (h : Flat t) : t.consumed = t.headSize := by
  cases t with
  | fixedArray inner len =>
    obtain ⟨-, hdyn, hsize, -, -⟩ := FlatWord.spec h
    rw [AbiType.consumed, AbiType.headSize, hdyn, hsize, Nat.mul_comm]
  | tuple params =>
    obtain ⟨hdyn, hsizes, hconsumed⟩ := headSizes_flat h
    rw [AbiType.consumed, AbiType.headSize, hdyn, hsizes, hconsumed]
  | _ => rfl

theorem Readable.of_flatWord {t : AbiType} (h : FlatWord t) (v : AbiValue) :
    Readable t v := by
  cases t <;> first | exact h.elim | (cases v <;> trivial)

theorem ReadableAll.of_flat {params : List AbiParam}
    (h : ∀ p ∈ params, FlatWord p.abiType) (vs : List AbiValue) : ReadableAll params vs := by
  induction params generalizing vs with
  | nil => trivial
  | cons p ps ih =>
    obtain ⟨name, t, indexed⟩ := p
    have ht : FlatWord t := h _ List.mem_cons_self
    obtain ⟨-, hdyn, hsize, hconsumed, -⟩ := ht.spec
    cases vs with
    | nil => trivial
    | cons v vs =>
      refine ⟨Readable.of_flatWord ht v, ?_, Or.inr (by omega),
        ih (fun p hp => h p (List.mem_cons_of_mem _ hp)) vs⟩
      intro hdyn'
      rw [hdyn] at hdyn'
      cases hdyn'

theorem length_layout_flat {inner : AbiType} (h : FlatWord inner) {items : List AbiValue}
    (hitems : ∀ x ∈ items, HasType inner x) :
    (layout (items.map fun x => (inner.isDynamic, encode inner x))).length = 32 * items.length := by
  obtain ⟨-, hdyn, hsize, -, -⟩ := h.spec
  have hfixed := length_encode (.fixedArray inner items.length) (.seq items) hdyn
    ⟨items, rfl, rfl, hitems⟩
  rw [AbiType.headSize, hdyn, hsize, encode] at hfixed
  rw [hfixed, Nat.mul_comm]
  rfl

theorem Readable.of_flat {t : AbiType} {v : AbiValue} (ht : Flat t) (hv : HasType t v)
    (hroom : (encode t v).length < 2 ^ 63) : Readable t v := by
  cases t with
  | array inner =>
    obtain ⟨items, rfl, hitems⟩ := hv
    obtain ⟨-, hdyn, hsize, hconsumed, -⟩ := FlatWord.spec ht
    rw [encode, List.length_append, length_layout_flat ht hitems] at hroom
    exact Or.inr ⟨hdyn, by omega, Or.inr (by omega), fun x _ => Readable.of_flatWord ht x⟩
  | fixedArray inner len =>
    obtain ⟨items, rfl, rfl, hitems⟩ := hv
    obtain ⟨-, hdyn, hsize, hconsumed, -⟩ := FlatWord.spec ht
    rw [encode, length_layout_flat ht hitems] at hroom
    exact Or.inr ⟨hdyn, hroom, Or.inr (by omega), fun x _ => Readable.of_flatWord ht x⟩
  | tuple params =>
    obtain ⟨hdyn, hsizes, -⟩ := headSizes_flat ht
    have hsize := length_encode (.tuple params) v hdyn hv
    rw [AbiType.headSize, hdyn, if_neg (by simp), hsizes] at hsize
    obtain ⟨items, rfl, -⟩ := hv
    exact ⟨by omega, ReadableAll.of_flat ht items⟩
  | bytes => cases v <;> trivial
  | string => cases v <;> trivial
  | _ => exact Readable.of_flatWord (ht.word rfl) v

theorem decodeIndexedParam_topicOf {digest : AbiType → AbiValue → Hash32} {t : AbiType}
    {v : AbiValue} (ht : Flat t) (hv : HasType t v) :
    decodeIndexedParam t (topicOf digest t v) =
      .ok (if !t.isWord then .fixedBytes (digest t v).bytes else decoded t v) := by
  cases hword : t.isWord with
  | true =>
    obtain ⟨-, hdyn, hsize, -, hint⟩ := (ht.word hword).spec
    have hlen : (encode t v).length = 32 := (length_encode t v hdyn hv).trans hsize
    have htopic : (topicOf digest t v).bytes = encode t v := by
      rw [topicOf, dif_pos ⟨hword, hlen⟩]
    exact decodeIndexedParam_encode hword hv (fun h => (hint 128 h).elim) htopic
  | false =>
    have htopic : topicOf digest t v = digest t v := by
      rw [topicOf, dif_neg (by simp [hword])]
    rw [htopic]
    cases t <;> first | rfl | cases hword

/-- The loop over the inputs of a flat event: the two cursors stay where the next topic and the
next head are. -/
theorem decodeInputs_flat {digest : AbiType → AbiValue → Hash32} {log : Log}
    (hlen : log.data.length < 2 ^ 63) {ps : List AbiParam} (hflat : ∀ p ∈ ps, Flat p.abiType)
    (hnodup : (ps.map AbiParam.name).Nodup) {vs : List AbiValue} (hvs : HasTypes ps vs)
    {params : IndexMap String DecodedParam} (hfresh : ∀ p ∈ ps, p.name ∉ params.keys)
    {topicIdx : ℕ} (htopics : log.topics.drop topicIdx = eventTopics digest ps vs)
    {pos o : ℕ} (hlaid : Laid log.data 0 pos o (eventParts ps vs)) :
    ∃ params', decodeInputs .roomy log ps params topicIdx pos = .ok params' ∧
      params'.entries = params.entries ++ eventEntries digest ps vs := by
  induction ps generalizing vs params topicIdx pos o with
  | nil =>
    refine ⟨params, rfl, ?_⟩
    have hnone : eventEntries digest [] vs = [] := by cases vs <;> rfl
    rw [hnone, List.append_nil]
  | cons p ps ih =>
    obtain ⟨name, t, indexed⟩ := p
    obtain ⟨v, vs, rfl, hv, hvs⟩ := hvs
    have ht : Flat t := hflat _ List.mem_cons_self
    have hflat' : ∀ p ∈ ps, Flat p.abiType := fun p hp => hflat p (List.mem_cons_of_mem _ hp)
    obtain ⟨hname, hnodup'⟩ := List.nodup_cons.mp hnodup
    have hnew : name ∉ params.keys := hfresh _ List.mem_cons_self
    have hfresh' : ∀ value, ∀ p ∈ ps, p.name ∉ (params.insert name value).keys := by
      intro value p hp hmem
      rw [IndexMap.mem_keys_insert] at hmem
      obtain heq | hmem := hmem
      · exact hname (List.mem_map.mpr ⟨p, hp, heq⟩)
      · exact hfresh p (List.mem_cons_of_mem _ hp) hmem
    cases indexed with
    | true =>
      rw [eventTopics, if_pos rfl] at htopics
      rw [eventParts, if_pos rfl] at hlaid
      have htopic : log.topics[topicIdx]? = some (topicOf digest t v) := by
        rw [← List.head?_drop, htopics, List.head?_cons]
      have hnext : log.topics.drop (topicIdx + 1) = eventTopics digest ps vs := by
        rw [← List.tail_drop, htopics, List.tail_cons]
      obtain ⟨params', hdecode, hentries⟩ :=
        ih hflat' hnodup' hvs (hfresh' _) hnext hlaid
      refine ⟨params', ?_, ?_⟩
      · rw [decodeInputs, if_pos rfl, htopic]
        dsimp only
        rw [decodeIndexedParam_topicOf ht hv, ok_bind, hdecode]
      · rw [hentries, IndexMap.entries_insert hnew, eventEntries, List.append_assoc]
        rfl
    | false =>
      rw [eventTopics, if_neg (by simp)] at htopics
      rw [eventParts, if_neg (by simp)] at hlaid
      have hreadable := Readable.of_flat ht hv (lt_of_le_of_lt hlaid.length_le hlen)
      obtain ⟨hread, hle⟩ := decodeParam_laid hlen hv hreadable hlaid
      have hstep : (if t.isDynamic then 32 else (encode t v).length) = t.consumed := by
        rw [ht.consumed]
        cases hdyn : t.isDynamic with
        | true => rw [if_pos rfl, AbiType.headSize_of_isDynamic hdyn]
        | false => rw [if_neg (by simp), length_encode t v hdyn hv]
      obtain ⟨o', hnext⟩ := hlaid.next
      rw [hstep] at hnext
      obtain ⟨params', hdecode, hentries⟩ := ih hflat' hnodup' hvs (hfresh' _) htopics hnext
      refine ⟨params', ?_, ?_⟩
      · rw [decodeInputs, if_neg (by simp), decodeParamFromData, hread, ok_bind]
        dsimp only
        rw [add_of_lt (by omega), ok_bind, hdecode]
      · rw [hentries, IndexMap.entries_insert hnew, eventEntries, List.append_assoc]
        rfl

/-- Decoding inverts encoding for the flat events that the decoder's table keeps: the log of such an
event gives one entry for each input, in their order, with the value that was encoded, or with the
raw topic where only a digest was logged. -/
theorem decode_flat_event (digest : AbiType → AbiValue → Hash32) {abi : ParsedAbi} {e : AbiEvent}
    (he : abi.eventOf e.selector = some e) (hnames : (e.inputs.map AbiParam.name).Nodup)
    (hflat : ∀ p ∈ e.inputs, Flat p.abiType) {vs : List AbiValue} (hvs : HasTypes e.inputs vs)
    {log : Log} (hlog : Emitted digest e vs log) (hlen : log.data.length < 2 ^ 63)
    (contractName : String) :
    ∃ params, (LogDecoder.new abi).decode log contractName =
        .ok ⟨e.name, contractName, params, log⟩ ∧
      params.entries = eventEntries digest e.inputs vs := by
  have htopics : log.topics.drop 1 = eventTopics digest e.inputs vs := by
    rw [hlog.topics]
    rfl
  have hlaid : Laid log.data 0 0 (HeadTail.headLength (eventParts e.inputs vs))
      (eventParts e.inputs vs) := by
    apply laid_layout
    rw [hlog.data]
    exact At.refl _
  have hfresh : ∀ p ∈ e.inputs, p.name ∉ (IndexMap.empty : IndexMap String DecodedParam).keys :=
    fun _ _ => List.not_mem_nil
  obtain ⟨params, hdecode, hentries⟩ :=
    decodeInputs_flat hlen hflat hnames hvs hfresh htopics hlaid
  refine ⟨params, ?_, hentries⟩
  rw [LogDecoder.decode, LogDecoder.decode_of_event hlog.topics he, hdecode,
    ok_bind]

/-- An event with both kinds of indexed input and both kinds of data, for the selector of zeros. -/
def noteEvent : AbiEvent where
  name := "Note"
  signature := "Note(uint8,string,string,uint256[2],address[])"
  selector := Hash32.zero
  inputs := [.mk "kind" (.uint 8) true, .mk "title" .string true, .mk "text" .string false,
    .mk "pair" (.fixedArray (.uint 256) 2) false, .mk "readers" (.array .address) false]

def noteValues : List AbiValue :=
  [.uint 7, .string "a", .string "b", .seq [.uint 1, .uint 2], .seq [.address Address.zero]]

def noteLog (e : AbiEvent) (vs : List AbiValue) : Log where
  id := "1-0"
  chainId := 1
  address := Address.zero
  topics := e.selector :: eventTopics (fun _ _ => Hash32.zero) e.inputs vs
  data := layout (eventParts e.inputs vs)
  blockNumber := 1
  blockHash := Hash32.zero
  transactionHash := Hash32.zero
  logIndex := 0
  transactionIndex := 0
  removed := false

theorem decode_flat_event_note :
    ∃ params, (LogDecoder.new ⟨[noteEvent], []⟩).decode (noteLog noteEvent noteValues) "Notes" =
        .ok ⟨"Note", "Notes", params, noteLog noteEvent noteValues⟩ ∧
      params.entries = [("kind", .uint 7), ("title", .fixedBytes Hash32.zero.bytes),
        ("text", .string "b"), ("pair", .array [.uint256 "1", .uint256 "2"]),
        ("readers", .array [.address Address.zero])] := by
  have hwidth : Width 8 ∧ Width 256 := by
    unfold Width
    decide
  have hflat : ∀ p ∈ noteEvent.inputs, Flat p.abiType := by
    simp [noteEvent, Flat, FlatWord, hwidth]
  have htyped : HasTypes noteEvent.inputs noteValues := by
    simp [noteEvent, noteValues, HasTypes, HasType, hwidth]
  exact decode_flat_event (fun _ _ => Hash32.zero) rfl (by decide) hflat htyped ⟨rfl, rfl⟩
    (by decide +kernel) "Notes"

/-- An item of an ABI for `Transfer(address,address,uint256)`, with its last input indexed or not. -/
def transferItem (name : String) (indexed : Bool) : Json :=
  .object [.mk "type" (.string "event"), .mk "name" (.string "Transfer"), .mk "inputs" (.array
    [.object [.mk "name" (.string "from"), .mk "type" (.string "address"),
      .mk "indexed" (.bool true)],
     .object [.mk "name" (.string "to"), .mk "type" (.string "address"),
      .mk "indexed" (.bool true)],
     .object [.mk "name" (.string name), .mk "type" (.string "uint256"),
      .mk "indexed" (.bool indexed)]])]

def transferEvent (name : String) (indexed : Bool) : AbiEvent where
  name := "Transfer"
  signature := "Transfer(address,address,uint256)"
  selector := Hash32.zero
  inputs := [.mk "from" .address true, .mk "to" .address true, .mk name (.uint 256) indexed]

/-- The transfer of an amount and that of a token have one signature.  In an ABI with both the table
keeps the later, and a log of the earlier has no topic for the last input. -/
theorem decode_not_flat_event :
    ¬∀ (fromStr : String → Except String (List Json)) (keccak256 : Bytes → Hash32) (json : String)
      (abi : ParsedAbi) (digest : AbiType → AbiValue → Hash32) (e : AbiEvent) (vs : List AbiValue)
      (log : Log) (contractName : String), parseAbi fromStr keccak256 json = .ok abi →
      (∀ e₁ ∈ abi.events, ∀ e₂ ∈ abi.events, e₁.signature ≠ e₂.signature →
        e₁.selector ≠ e₂.selector) →
      e ∈ abi.events → (e.inputs.map AbiParam.name).Nodup → (∀ p ∈ e.inputs, Flat p.abiType) →
      HasTypes e.inputs vs → Emitted digest e vs log → log.data.length < 2 ^ 63 →
      ∃ params, (LogDecoder.new abi).decode log contractName =
          .ok ⟨e.name, contractName, params, log⟩ ∧
        params.entries = eventEntries digest e.inputs vs := by
  intro h
  have hparse : parseAbi (fun _ => .ok [transferItem "value" false, transferItem "tokenId" true])
      (fun _ => Hash32.zero) "" =
        .ok ⟨[transferEvent "value" false, transferEvent "tokenId" true], []⟩ := rfl
  have hwidth : Width 256 := by
    unfold Width
    decide
  have hflat : ∀ p ∈ (transferEvent "value" false).inputs, Flat p.abiType := by
    simp [transferEvent, Flat, FlatWord, hwidth]
  have htyped : HasTypes (transferEvent "value" false).inputs
      [.address Address.zero, .address Address.zero, .uint 5] := by
    simp [transferEvent, HasTypes, HasType, hwidth]
  obtain ⟨params, hdecode, -⟩ := h _ _ _ _ (fun _ _ => Hash32.zero) (transferEvent "value" false)
    [.address Address.zero, .address Address.zero, .uint 5]
    (noteLog (transferEvent "value" false)
      [.address Address.zero, .address Address.zero, .uint 5]) "Token" hparse
    (by simp [transferEvent]) List.mem_cons_self (by decide) hflat htyped ⟨rfl, rfl⟩
    (by decide +kernel)
  have hmissing : (LogDecoder.new ⟨[transferEvent "value" false, transferEvent "tokenId" true],
      []⟩).decode (noteLog (transferEvent "value" false)
        [.address Address.zero, .address Address.zero, .uint 5]) "Token" =
      .error (.err (.decodeMismatch "missing topic for indexed param 'tokenId'")) := rfl
  rw [hmissing] at hdecode
  cases hdecode

/-- A dynamic type occurs inside an array, a fixed array or a tuple. -/
def AbiType.nestsDynamic : AbiType → Bool
  | .array inner => inner.isDynamic
  | .fixedArray inner _ => inner.isDynamic
  | .tuple params => AbiType.anyDynamic params
  | _ => false

/-- An event with one input, which is not indexed, is read back unless its value leads the decoder
to an offset inside an array, a fixed array or an inner tuple, past a fixed array of elements that
are no words, to a negative integer of 128 bits, or to a vector of more than `isize::MAX` bytes. -/
theorem decode_single_event (digest : AbiType → AbiValue → Hash32) {abi : ParsedAbi} {e : AbiEvent}
    (he : abi.eventOf e.selector = some e) {name : String} {t : AbiType}
    (hinputs : e.inputs = [.mk name t false]) {v : AbiValue} (hv : HasType t v) {log : Log}
    (hlog : Emitted digest e [v] log) (hlen : log.data.length < 2 ^ 63) (hread : Readable t v)
    (contractName : String) :
    ∃ params, (LogDecoder.new abi).decode log contractName =
        .ok ⟨e.name, contractName, params, log⟩ ∧ params.entries = [(name, decoded t v)] := by
  have hat : At log.data 0 (layout [(t.isDynamic, encode t v)]) := by
    rw [hlog.data, hinputs]
    exact At.refl _
  obtain ⟨hdecode, hle⟩ := decodeParam_laid hlen hv hread (laid_layout hat)
  refine ⟨IndexMap.empty.insert name (decoded t v), ?_, rfl⟩
  rw [LogDecoder.decode, LogDecoder.decode_of_event hlog.topics he, hinputs,
    decodeInputs, if_neg (by simp), decodeParamFromData, hdecode, ok_bind]
  dsimp only
  rw [add_of_lt (by omega), ok_bind, decodeInputs, ok_bind]

/-- A dynamic tuple of a word, a string and an array of pairs. -/
def orderEvent : AbiEvent where
  name := "Order"
  signature := "Order((uint64,string,(uint8,bool)[]))"
  selector := Hash32.zero
  inputs := [.mk "order" (.tuple [.mk "id" (.uint 64) false, .mk "note" .string false,
    .mk "lines" (.array (.tuple [.mk "n" (.uint 8) false, .mk "paid" .bool false])) false]) false]

def orderValue : AbiValue :=
  .seq [.uint 5, .string "b", .seq [.seq [.uint 1, .bool true], .seq [.uint 2, .bool false]]]

theorem decode_single_event_order :
    ∃ params, (LogDecoder.new ⟨[orderEvent], []⟩).decode (noteLog orderEvent [orderValue]) "Shop" =
        .ok ⟨"Order", "Shop", params, noteLog orderEvent [orderValue]⟩ ∧
      params.entries = [("order", .tuple [.uint 5, .string "b",
        .array [.tuple [.uint 1, .bool true], .tuple [.uint 2, .bool false]]])] := by
  have hwidth : Width 64 ∧ Width 8 := by
    unfold Width
    decide
  have htyped : HasTypes orderEvent.inputs [orderValue] := by
    simp [orderEvent, orderValue, HasTypes, HasType, hwidth]
  obtain ⟨v, vs, heq, hv, -⟩ := htyped
  cases heq
  have hemitted : Emitted (fun _ _ => Hash32.zero) orderEvent [orderValue]
      (noteLog orderEvent [orderValue]) := ⟨rfl, rfl⟩
  refine decode_single_event (fun _ _ => Hash32.zero) rfl rfl hv hemitted
    (by decide +kernel) ?_ "Shop"
  simp [orderValue, Readable, ReadableAll, AbiType.isDynamic, AbiType.anyDynamic, AbiType.isDirect,
    AbiType.consumed, AbiType.consumedAll, AbiType.headSize, AbiType.headSizes]

/-- One array of byte strings. -/
def chunksEvent : AbiEvent where
  name := "Chunks"
  signature := "Chunks(bytes[])"
  selector := Hash32.zero
  inputs := [.mk "chunks" (.array .bytes) false]

set_option maxRecDepth 4000 in
/-- The decoder follows the offset of an element from the start of the data, to the length of the
array, and takes the byte behind that. -/
theorem decode_nested_not_inverse :
    ¬∀ (digest : AbiType → AbiValue → Hash32) (abi : ParsedAbi) (e : AbiEvent) (name : String)
      (t : AbiType) (v : AbiValue) (log : Log) (contractName : String), e ∈ abi.events →
      abi.eventOf e.selector = some e → e.inputs = [.mk name t false] →
      t.nestsDynamic = true → HasType t v → Emitted digest e [v] log →
      log.data.length < 2 ^ 63 →
      ∃ params, (LogDecoder.new abi).decode log contractName =
          .ok ⟨e.name, contractName, params, log⟩ ∧ params.entries = [(name, decoded t v)] := by
  intro h
  have hmem : chunksEvent ∈ (ParsedAbi.mk [chunksEvent] []).events := List.mem_singleton_self _
  have htyped : HasType (.array .bytes) (.seq [.bytes [7]]) := by simp [HasType]
  have hsmall : (noteLog chunksEvent [.seq [.bytes [7]]]).data.length < 2 ^ 63 := by
    decide +kernel
  obtain ⟨params, hdecode, hentries⟩ := h (fun _ _ => Hash32.zero) ⟨[chunksEvent], []⟩ chunksEvent
    "chunks" (.array .bytes) (.seq [.bytes [7]]) (noteLog chunksEvent [.seq [.bytes [7]]]) "Store"
    hmem rfl rfl rfl htyped ⟨rfl, rfl⟩ hsmall
  have hrun : (LogDecoder.new ⟨[chunksEvent], []⟩).decode (noteLog chunksEvent [.seq [.bytes [7]]])
      "Store" = .ok ⟨"Chunks", "Store",
        IndexMap.empty.insert "chunks" (.array [.bytes [0]]),
        noteLog chunksEvent [.seq [.bytes [7]]]⟩ := by
    rfl
  rw [hrun] at hdecode
  cases hdecode
  simp [IndexMap.insert, IndexMap.insertEntry, IndexMap.empty, decoded] at hentries

set_option maxRecDepth 4000 in
-- the wrong place happens to hold this value, so it is read back all the same
example : decodeParam .roomy false (layout [(true, encode (.array .bytes) (.seq [.bytes [0]]))])
    (.array .bytes) 0 = .ok (decoded (.array .bytes) (.seq [.bytes [0]]), 32) := by
  rfl

end ForgeIndex
