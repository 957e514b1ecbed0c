import ForgeIndex.Abi.HeadSize
import ForgeIndex.Abi.Params

/-!
# Truncated logs

Words beyond the end of the data are refused.  The bytes of a value are cut at the end of the data
instead, so a log that ends within them is decoded.
-/

namespace ForgeIndex

def Stop.Mismatch : Stop → Prop
  | .err (.decodeMismatch _) => True
  | .err _ => False
  | .fault _ => True

/-- The only error that the computation returns is `DecodeMismatch`. -/
def Mismatches {α : Type} (x : Decode α) : Prop := ∀ stop, x = .error stop → stop.Mismatch

namespace Mismatches

variable {α β : Type}

theorem ok (a : α) : Mismatches (.ok a : Decode α) := fun _ h => by cases h

theorem fault (f : Fault) : Mismatches (.error (.fault f) : Decode α) := fun _ h => by
  cases h
  trivial

theorem short (message : String) : Mismatches (mismatch message : Decode α) := fun _ h => by
  cases h
  trivial

theorem bind {x : Decode α} {f : α → Decode β} (hx : Mismatches x) (hf : ∀ a, Mismatches (f a)) :
    Mismatches (x >>= f) := by
  cases x with
  | ok a => exact hf a
  | error stop =>
    intro stop' h
    cases h
    exact hx stop rfl

theorem branch {p : Prop} [Decidable p] {x y : Decode α} (hx : Mismatches x) (hy : Mismatches y) :
    Mismatches (if p then x else y) := by
  split_ifs
  · exact hx
  · exact hy

end Mismatches

section Errors

open Mismatches

variable {a : Allocator} {data : Bytes}

theorem mismatches_add (a b : ℕ) : Mismatches (add a b) := branch (ok _) (fault _)

theorem mismatches_sub (a b : ℕ) : Mismatches (sub a b) := branch (ok _) (fault _)

theorem mismatches_mul (a b : ℕ) : Mismatches (mul a b) := branch (ok _) (fault _)

theorem mismatches_slice (lo hi : ℕ) : Mismatches (slice data lo hi) := branch (ok _) (fault _)

theorem mismatches_withCapacity (n : ℕ) : Mismatches (withCapacity a n) := branch (ok _) (fault _)

theorem mismatches_readSlot (offset : ℕ) : Mismatches (readSlot data offset) :=
  bind (mismatches_add _ _) fun _ => branch (short _) (mismatches_slice _ _)

theorem mismatches_readOffset (offset : ℕ) : Mismatches (readOffset data offset) :=
  bind (mismatches_readSlot _) fun _ => branch (short _) (ok _)

theorem mismatches_decodeInt (slot : Bytes) (bits : ℕ) : Mismatches (decodeInt slot bits) := by
  unfold decodeInt
  refine branch (bind (mismatches_sub _ _) fun _ => branch (branch (ok _) (fault _)) (ok _)) ?_
  exact branch (ok _) (ok _)

theorem mismatches_decodeIndexedParam (t : AbiType) (topic : Hash32) :
    Mismatches (decodeIndexedParam t topic) := by
  cases t with
  | int bits => exact mismatches_decodeInt _ _
  | _ => exact ok _

theorem mismatches_startOf (abs : Bool) (offset : ℕ) : Mismatches (startOf abs data offset) :=
  branch (ok _) (mismatches_readOffset _)

theorem mismatches_decodeBytesAt (start : ℕ) : Mismatches (decodeBytesAt data start) := by
  rw [decodeBytesAt_eq]
  refine bind (mismatches_readOffset _) fun _ => bind (mismatches_add _ _) fun _ => ?_
  refine bind (mismatches_add _ _) fun _ => bind (mismatches_slice _ _) fun _ => ?_
  exact bind (mismatches_mul _ _) fun _ => bind (mismatches_add _ _) fun _ => ok _

theorem mismatches_decodeItems {item : ℕ → Decode (DecodedParam × ℕ)}
    (hitem : ∀ p, Mismatches (item p)) (n p : ℕ) : Mismatches (decodeItems item n p) := by
  induction n generalizing p with
  | zero => exact ok _
  | succ n ih =>
    exact bind (hitem p) fun _ => bind (mismatches_add _ _) fun next => bind (ih next) fun _ => ok _

theorem mismatches_decodeArrayAt {item : ℕ → Decode (DecodedParam × ℕ)}
    (hitem : ∀ p, Mismatches (item p)) (start : ℕ) : Mismatches (decodeArrayAt a item data start) := by
  rw [decodeArrayAt_eq]
  refine bind (mismatches_readOffset _) fun _ => bind (mismatches_withCapacity _) fun _ => ?_
  refine bind (mismatches_add _ _) fun _ => bind (mismatches_decodeItems hitem _ _) fun _ => ?_
  exact bind (mismatches_sub _ _) fun _ => ok _

mutual

theorem mismatches_decodeParam : ∀ (t : AbiType) (abs : Bool) (offset : ℕ),
    Mismatches (decodeParam a abs data t offset)
  | .uint _, abs, offset => by
    rw [decodeParam]
    exact bind (mismatches_readSlot _) fun _ => ok _
  | .int _, abs, offset => by
    rw [decodeParam]
    exact bind (mismatches_readSlot _) fun _ => bind (mismatches_decodeInt _ _) fun _ => ok _
  | .address, abs, offset => by
    rw [decodeParam]
    exact bind (mismatches_readSlot _) fun _ => ok _
  | .bool, abs, offset => by
    rw [decodeParam]
    exact bind (mismatches_readSlot _) fun _ => ok _
  | .fixedBytes _, abs, offset => by
    rw [decodeParam]
    exact bind (mismatches_readSlot _) fun _ => ok _
  | .bytes, abs, offset => by
    rw [decodeParam]
    exact bind (mismatches_startOf _ _) fun _ => bind (mismatches_decodeBytesAt _) fun _ => ok _
  | .string, abs, offset => by
    rw [decodeParam]
    exact bind (mismatches_startOf _ _) fun _ => bind (mismatches_decodeBytesAt _) fun _ => ok _
  | .array inner, abs, offset => by
    rw [decodeParam]
    have hitem := mismatches_decodeParam inner false
    exact bind (mismatches_startOf _ _) fun _ => bind (mismatches_decodeArrayAt hitem _) fun _ => ok _
  | .fixedArray inner len, abs, offset => by
    rw [decodeParam]
    have hitems := mismatches_decodeItems (mismatches_decodeParam inner false) len
    refine branch (bind (mismatches_readOffset _) fun start => ?_) ?_
    · refine bind (mismatches_withCapacity _) fun _ => bind (hitems start) fun _ => ?_
      exact bind (mismatches_sub _ _) fun _ => ok _
    · refine bind (mismatches_withCapacity _) fun _ => bind (hitems offset) fun _ => ?_
      exact bind (mismatches_mul _ _) fun _ => ok _
  | .tuple params, abs, offset => by
    rw [decodeParam]
    have hmembers (start : ℕ) := mismatches_decodeParams params start start
    refine branch (bind (mismatches_readOffset _) fun start => ?_) ?_
    · refine bind (mismatches_withCapacity _) fun _ => bind (hmembers start) fun _ => ?_
      exact bind (mismatches_sub _ _) fun _ => ok _
    · refine bind (mismatches_withCapacity _) fun _ => bind (hmembers offset) fun _ => ?_
      exact bind (mismatches_sub _ _) fun _ => ok _

theorem mismatches_decodeParams : ∀ (ps : List AbiParam) (base pos : ℕ),
    Mismatches (decodeParams a data ps base pos)
  | [], base, pos => by
    rw [decodeParams]
    exact ok _
  | .mk _ t _ :: ps, base, pos => by
    rw [decodeParams]
    have hrest := mismatches_decodeParams ps base
    refine branch (bind (mismatches_readOffset _) fun _ => bind (mismatches_add _ _) fun start => ?_)
      (bind (mismatches_decodeParam t false pos) fun _ => ?_)
    · refine bind (mismatches_decodeParam t true start) fun _ => bind (mismatches_add _ _) ?_
      exact fun next => bind (hrest next) fun _ => ok _
    · exact bind (mismatches_add _ _) fun next => bind (hrest next) fun _ => ok _

end

theorem mismatches_decodeInputs (log : Log) (inputs : List AbiParam)
    (params : IndexMap String DecodedParam) (topicIdx dataOffset : ℕ) :
    Mismatches (decodeInputs a log inputs params topicIdx dataOffset) := by
  induction inputs generalizing params topicIdx dataOffset with
  | nil => exact ok _
  | cons p inputs ih =>
    obtain ⟨name, t, indexed⟩ := p
    rw [decodeInputs]
    refine branch ?_ (bind (mismatches_decodeParam t false dataOffset) fun _ => ?_)
    · cases log.topics[topicIdx]? with
      | none => exact short _
      | some topic => exact bind (mismatches_decodeIndexedParam t topic) fun _ => ih _ _ _
    · exact bind (mismatches_add _ _) fun next => ih _ _ next

end Errors

section Values

/-- The length word of the value whose offset word is at `o`. -/
def declaredLength (data : Bytes) (o : ℕ) : ℕ := wordAt data (wordAt data o)

/-- As many of the bytes behind the length word as there are. -/
def valueBytes (data : Bytes) (o : ℕ) : Bytes :=
  (data.drop (wordAt data o + 32)).take (declaredLength data o)

/-- The offset word at `o`, the length word it leads to and the bytes behind that are all in the
data. -/
def WholeAt (data : Bytes) (o : ℕ) : Prop :=
  NumberAt data o ∧ NumberAt data (wordAt data o) ∧
    wordAt data o + 32 + declaredLength data o ≤ data.length

/-- A value of type bytes or string has exactly the bytes that its length word declares. -/
def ExactValue (data : Bytes) (o : ℕ) : AbiType → DecodedParam → Prop
  | .bytes, v => v = .bytes (valueBytes data o) ∧ (valueBytes data o).length = declaredLength data o
  | .string, v => v = .string (fromUtf8Lossy (valueBytes data o)) ∧
      (valueBytes data o).length = declaredLength data o
  | _, _ => True

/-- The values of the inputs of type bytes or string that are read from the data are exact. -/
def InputsExact (log : Log) : List AbiParam → List DecodedParam → ℕ → Prop
  | .mk _ t indexed :: ps, v :: vs, o =>
    if indexed then InputsExact log ps vs o
    else ExactValue log.data o t v ∧ InputsExact log ps vs (o + t.consumed)
  | _, _, _ => True

def AbiType.isText : AbiType → Bool
  | .bytes => true
  | .string => true
  | _ => false

/-- What those inputs declare is all in the data. -/
def InputsWhole (log : Log) : List AbiParam → ℕ → Prop
  | [], _ => True
  | .mk _ t indexed :: ps, o =>
    if indexed then InputsWhole log ps o
    else (t.isText = true → WholeAt log.data o) ∧ InputsWhole log ps (o + t.consumed)

variable {a : Allocator} {data : Bytes}

theorem WholeAt.length_valueBytes {o : ℕ} (h : WholeAt data o) :
    (valueBytes data o).length = declaredLength data o := by
  have hend := h.2.2
  rw [valueBytes, List.length_take, List.length_drop]
  omega

theorem value_of_decodeBytesAt {start : ℕ} {r : Bytes × ℕ} (h : decodeBytesAt data start = .ok r) :
    r.1 = (data.drop (start + 32)).take (wordAt data start) := by
  rw [decodeBytesAt_eq] at h
  obtain ⟨len, hlen, h⟩ := bind_eq_ok.mp h
  obtain ⟨first, hfirst, h⟩ := bind_eq_ok.mp h
  obtain ⟨last, hlast, h⟩ := bind_eq_ok.mp h
  obtain ⟨value, hvalue, h⟩ := bind_eq_ok.mp h
  obtain ⟨padded, -, h⟩ := bind_eq_ok.mp h
  obtain ⟨size, -, h⟩ := bind_eq_ok.mp h
  cases h
  obtain rfl : len = wordAt data start := ((judges_readOffset data start).of_ok hlen).2.2
  obtain rfl := eq_of_add hfirst
  obtain rfl := eq_of_add hlast
  -- the end of the slice is the smaller of the declared end and the end of the data
  unfold slice at hvalue
  split_ifs at hvalue with hle
  cases hvalue
  rcases Nat.le_total (start + 32 + wordAt data start) data.length with hin | hout
  · rw [min_eq_left hin, Nat.add_sub_cancel_left]
  · rw [min_eq_right hout, List.take_of_length_le (by rw [List.length_drop]),
      List.take_of_length_le (by rw [List.length_drop]; omega)]

theorem exactValue_of_decode {t : AbiType} {o : ℕ} {r : DecodedParam × ℕ}
    (h : decodeParamFromData a t data o = .ok r) (hwhole : t.isText = true → WholeAt data o) :
    ExactValue data o t r.1 := by
  have hvalue {start : ℕ} {s : Bytes × ℕ} (hstart : startOf false data o = .ok start)
      (hs : decodeBytesAt data start = .ok s) : s.1 = valueBytes data o := by
    obtain rfl : start = wordAt data o := ((judges_readOffset data o).of_ok hstart).2.2
    exact value_of_decodeBytesAt hs
  cases t with
  | bytes =>
    rw [decodeParamFromData, decodeParam] at h
    obtain ⟨start, hstart, h⟩ := bind_eq_ok.mp h
    obtain ⟨s, hs, h⟩ := bind_eq_ok.mp h
    cases h
    exact ⟨congrArg DecodedParam.bytes (hvalue hstart hs), (hwhole rfl).length_valueBytes⟩
  | string =>
    rw [decodeParamFromData, decodeParam] at h
    obtain ⟨start, hstart, h⟩ := bind_eq_ok.mp h
    obtain ⟨s, hs, h⟩ := bind_eq_ok.mp h
    cases h
    refine ⟨?_, (hwhole rfl).length_valueBytes⟩
    exact congrArg (fun b => DecodedParam.string (fromUtf8Lossy b)) (hvalue hstart hs)
  | _ => trivial

theorem inputsExact_of_values {log : Log} {ps : List AbiParam} {vs : List DecodedParam}
    {topicIdx o : ℕ} (h : inputValues a log ps topicIdx o = .ok vs)
    (hwhole : InputsWhole log ps o) : InputsExact log ps vs o := by
  induction ps generalizing vs topicIdx o with
  | nil => trivial
  | cons p ps ih =>
    obtain ⟨name, t, indexed⟩ := p
    rw [inputValues] at h
    rw [InputsWhole] at hwhole
    cases indexed with
    | true =>
      rw [if_pos rfl] at h hwhole
      cases htopic : log.topics[topicIdx]? with
      | none =>
        rw [htopic] at h
        cases h
      | some topic =>
        rw [htopic] at h
        obtain ⟨value, -, h⟩ := bind_eq_ok.mp h
        obtain ⟨values, hvalues, h⟩ := bind_eq_ok.mp h
        cases h
        exact ih hvalues hwhole
    | false =>
      rw [if_neg (by simp)] at h hwhole
      obtain ⟨r, hr, h⟩ := bind_eq_ok.mp h
      obtain ⟨next, hnext, h⟩ := bind_eq_ok.mp h
      obtain ⟨values, hvalues, h⟩ := bind_eq_ok.mp h
      cases h
      have hconsumed : r.2 = t.consumed := ((judges_decodeParam t false o).of_ok hr).2.2 rfl
      have hplace : next = o + t.consumed := by rw [eq_of_add hnext, hconsumed]
      subst hplace
      rw [InputsExact, if_neg (by simp)]
      exact ⟨exactValue_of_decode hr hwhole.1, ih hvalues hwhole.2⟩

end Values

/-- A decoded event has exact values, and a log that ends before them is a `DecodeMismatch`. -/
structure RejectsTruncated (a : Allocator) (abi : ParsedAbi) (log : Log) (e : AbiEvent)
    (contractName : String) : Prop where
  exact : ∀ r, (LogDecoder.new abi).decodeWith a log contractName = .ok r →
    ∃ values, inputValues a log e.inputs 1 0 = .ok values ∧
      r.params = IndexMap.empty.insertAll ((e.inputs.map AbiParam.name).zip values) ∧
      InputsExact log e.inputs values 0
  rejects : ¬InputsWhole log e.inputs 0 → ∃ message,
    (LogDecoder.new abi).decodeWith a log contractName = .error (.err (.decodeMismatch message))

section Logs

variable {a : Allocator} {abi : ParsedAbi} {log : Log} {e : AbiEvent}

theorem mismatches_decode (he : abi.eventOfLog log = some e) (contractName : String) :
    Mismatches ((LogDecoder.new abi).decodeWith a log contractName) := by
  unfold ParsedAbi.eventOfLog at he
  cases htopics : log.topics with
  | nil =>
    rw [htopics] at he
    cases he
  | cons selector topics =>
    rw [htopics] at he
    rw [LogDecoder.decode_of_event htopics he]
    exact Mismatches.bind (mismatches_decodeInputs log e.inputs _ 1 0) fun _ => Mismatches.ok _

/-- In every process a truncated log is rejected exactly where the decoder comes, without a fault, to
a word that it cannot read. -/
theorem decode_rejects_iff (he : abi.eventOfLog log = some e) (contractName : String) :
    RejectsTruncated a abi log e contractName ↔ InputsWhole log e.inputs 0 ∨
      (InputsSafe a log e.inputs 1 0 ∧ ¬InputsRead log e.inputs 1 0) := by
  have hjudged := judges_decode (a := a) he contractName
  have hmismatch := mismatches_decode (a := a) he contractName
  constructor
  · intro h
    by_cases hwhole : InputsWhole log e.inputs 0
    · exact Or.inl hwhole
    · obtain ⟨message, herr⟩ := h.rejects hwhole
      rw [herr] at hjudged
      obtain ⟨hfault, -⟩ | ⟨-, hsafe⟩ := hjudged
      · cases hfault
      · exact Or.inr hsafe
  · intro h
    constructor
    · intro r hr
      obtain ⟨values, hvalues, hparams⟩ := LogDecoder.params_of_decode he hr
      obtain ⟨-, hread, -⟩ := hjudged.of_ok hr
      have hwhole : InputsWhole log e.inputs 0 := h.resolve_right fun hnot => hnot.2 hread
      exact ⟨values, hvalues, hparams, inputsExact_of_values hvalues hwhole⟩
    · intro hwhole
      obtain ⟨hsafe, hread⟩ := h.resolve_left hwhole
      cases hdecode : (LogDecoder.new abi).decodeWith a log contractName with
      | ok r => exact absurd (hjudged.of_ok hdecode).2.1 hread
      | error stop =>
        have hkind := hmismatch stop hdecode
        rw [hdecode] at hjudged
        obtain ⟨-, hunsafe⟩ | ⟨hanswer, -⟩ := hjudged
        · exact absurd hsafe hunsafe
        · cases stop with
          | fault f => exact absurd trivial hanswer
          | err err =>
            cases err with
            | decodeMismatch message => exact ⟨message, rfl⟩
            | _ => cases hkind

end Logs

theorem decode_rejects_iff_blob :
    RejectsTruncated .roomy ⟨[blobEvent], []⟩ (blobLog blobData) blobEvent "Store" := by
  have hoffset : wordAt blobData 0 = 32 := by decide +kernel
  have hlength : wordAt blobData 32 = 3 := by decide +kernel
  have hsize : blobData.length = 67 := rfl
  have hwhole : WholeAt blobData 0 := by
    rw [WholeAt, NumberAt, NumberAt, declaredLength, hoffset, hlength, hsize]
    decide
  exact (decode_rejects_iff rfl "Store").mpr (Or.inl ⟨fun _ => hwhole, trivial⟩)

/-- The offset and the length of each input of type bytes or string, where they can be read, are
below `2 ^ 62`. -/
def InputsSmall (log : Log) : List AbiParam → ℕ → Prop
  | [], _ => True
  | .mk _ t indexed :: ps, o =>
    if indexed then InputsSmall log ps o
    else (t.isText = true → wordAt log.data o < 2 ^ 62 ∧ declaredLength log.data o < 2 ^ 62) ∧
      InputsSmall log ps (o + t.consumed)

/-- `blobData` without its last two bytes. -/
def cutData : Bytes := HeadTail.word 32 ++ (HeadTail.word 3 ++ [1])

/-- One byte behind a length word of three is decoded as that byte. -/
theorem decode_not_rejects :
    ¬∀ (abi : ParsedAbi) (log : Log) (e : AbiEvent) (contractName : String),
      abi.eventOfLog log = some e → log.data.length < 2 ^ 63 → InputsSmall log e.inputs 0 →
      RejectsTruncated .roomy abi log e contractName := by
  intro h
  have hoffset : wordAt cutData 0 = 32 := by decide +kernel
  have hlength : wordAt cutData 32 = 3 := by decide +kernel
  have hdeclared : declaredLength cutData 0 = 3 := by rw [declaredLength, hoffset, hlength]
  have hsmall : InputsSmall (blobLog cutData) blobEvent.inputs 0 := by
    refine ⟨fun _ => ?_, trivial⟩
    show wordAt cutData 0 < 2 ^ 62 ∧ declaredLength cutData 0 < 2 ^ 62
    rw [hoffset, hdeclared]
    decide
  have hcut : ¬InputsWhole (blobLog cutData) blobEvent.inputs 0 := by
    intro hwhole
    have hend : wordAt cutData 0 + 32 + declaredLength cutData 0 ≤ cutData.length := (hwhole.1 rfl).2.2
    rw [hoffset, hdeclared] at hend
    exact absurd hend (by decide +kernel)
  obtain ⟨message, herr⟩ :=
    (h ⟨[blobEvent], []⟩ (blobLog cutData) blobEvent "Store" rfl (by decide +kernel) hsmall).rejects hcut
  have hdecode : (LogDecoder.new ⟨[blobEvent], []⟩).decodeWith .roomy (blobLog cutData) "Store" =
      .ok ⟨"Blob", "Store", IndexMap.empty.insert "b" (.bytes [1]), blobLog cutData⟩ := rfl
  rw [hdecode] at herr
  cases herr

end ForgeIndex
