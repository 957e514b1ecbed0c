import ForgeIndex.Abi.Encoding
import ForgeIndex.Abi.TypeStrings

/-!
# Solidity's types in the type parser

Which of Solidity's type names the parser reads, and what else it reads.
-/

namespace ForgeIndex

open Peeling

theorem parseElementary_uint (rest : List Char) :
    parseElementary ("uint".toList ++ rest) = .ok (.uint ((parseUsize rest).getD 256)) := by
  simp [parseElementary]

theorem parseElementary_int (rest : List Char) :
    parseElementary ("int".toList ++ rest) = .ok (.int ((parseUsize rest).getD 256)) := by
  simp [parseElementary]

theorem parseElementary_bytes {rest : List Char} {n : ℕ} (h : parseUsize rest = some n) :
    parseElementary ("bytes".toList ++ rest) = .ok (.fixedBytes n) := by
  have hne : rest ≠ [] := (parseUsize_plain h).1
  simp [parseElementary, h, hne]

/-- The texts that are read as an elementary type: four names, anything that begins like an integer
type, and `bytes` with a number. -/
def Accepted (cs : List Char) : Prop :=
  cs ∈ [("address".toList), "bool".toList, "string".toList, "bytes".toList] ∨
    "uint".toList <+: cs ∨ "int".toList <+: cs ∨
    ∃ rest, (parseUsize rest).isSome = true ∧ cs = "bytes".toList ++ rest

/-- No array and no tuple. -/
def AbiType.isElementary : AbiType → Bool
  | .array _ => false
  | .fixedArray _ _ => false
  | .tuple _ => false
  | _ => true

theorem parseElementary_of_accepted {cs : List Char} (h : Accepted cs) :
    ∃ t, parseElementary cs = .ok t ∧ t.isElementary = true := by
  rcases h with hname | ⟨rest, rfl⟩ | ⟨rest, rfl⟩ | ⟨rest, hsome, rfl⟩
  · simp only [List.mem_cons, List.not_mem_nil, or_false] at hname
    rcases hname with rfl | rfl | rfl | rfl
    · exact ⟨.address, rfl, rfl⟩
    · exact ⟨.bool, rfl, rfl⟩
    · exact ⟨.string, rfl, rfl⟩
    · exact ⟨.bytes, rfl, rfl⟩
  · exact ⟨_, parseElementary_uint rest, rfl⟩
  · exact ⟨_, parseElementary_int rest, rfl⟩
  · obtain ⟨n, hn⟩ := Option.isSome_iff_exists.mp hsome
    exact ⟨_, parseElementary_bytes hn, rfl⟩

theorem parseElementary_of_not_accepted {cs : List Char} (h : ¬Accepted cs) :
    parseElementary cs = .error (.unknownType (String.ofList cs)) := by
  unfold Accepted at h
  simp only [List.mem_cons, List.not_mem_nil, or_false, not_or] at h
  obtain ⟨⟨haddress, hbool, hstring, hbytes⟩, huint, hint, hfixed⟩ := h
  unfold parseElementary
  rw [if_neg haddress, if_neg hbool, if_neg hstring, if_neg hbytes, if_neg huint, if_neg hint]
  split_ifs with hprefix
  · obtain ⟨rest, rfl⟩ := hprefix
    cases hrest : parseUsize rest with
    | some n => exact absurd ⟨rest, by rw [hrest]; rfl, rfl⟩ hfixed
    | none =>
      have hdrop : ("bytes".toList ++ rest).drop 5 = rest := by simp
      rw [hdrop, hrest]
  · rfl

/-- Solidity's names for elementary types, and the types they denote. -/
inductive ElementaryName : List Char → AbiType → Prop
  | address : ElementaryName "address".toList .address
  | bool : ElementaryName "bool".toList .bool
  | string : ElementaryName "string".toList .string
  | bytes : ElementaryName "bytes".toList .bytes
  | uint : ElementaryName "uint".toList (.uint 256)
  | int : ElementaryName "int".toList (.int 256)
  | uintWidth (bits : ℕ) (h : Width bits) :
    ElementaryName ("uint" ++ toString bits).toList (.uint bits)
  | intWidth (bits : ℕ) (h : Width bits) : ElementaryName ("int" ++ toString bits).toList (.int bits)
  | fixedBytes (n : ℕ) (h : 1 ≤ n ∧ n ≤ 32) :
    ElementaryName ("bytes" ++ toString n).toList (.fixedBytes n)

theorem getLast?_append_digits {name ds : List Char} (h : IsDigits ds) :
    (name ++ ds).getLast? ≠ some ']' := by
  intro hlast
  rw [List.getLast?_append_of_ne_nil _ h.1] at hlast
  exact bracket_not_mem_digits h (by decide) (List.mem_of_getLast? hlast)

/-- An elementary type is written without suffixes and read back, whatever its width. -/
structure ReadsElementary (cs : List Char) (t : AbiType) : Prop where
  bare : peelSuffix cs = none
  parse : parseElementary cs = .ok t

theorem readsElementary_of_parse {name : String} {n : ℕ} {t : AbiType}
    (h : parseElementary (name.toList ++ (toString n).toList) = .ok t) :
    ReadsElementary (name ++ toString n).toList t := by
  rw [String.toList_append]
  exact ⟨peelSuffix_of_getLast? (getLast?_append_digits (isDigits_toString n)), h⟩

theorem readsElementary_uint {bits : ℕ} (h : bits < 2 ^ 64) :
    ReadsElementary ("uint" ++ toString bits).toList (.uint bits) := by
  apply readsElementary_of_parse
  rw [parseElementary_uint, parseUsize_toString h]
  rfl

theorem readsElementary_int {bits : ℕ} (h : bits < 2 ^ 64) :
    ReadsElementary ("int" ++ toString bits).toList (.int bits) := by
  apply readsElementary_of_parse
  rw [parseElementary_int, parseUsize_toString h]
  rfl

theorem readsElementary_fixedBytes {n : ℕ} (h : n < 2 ^ 64) :
    ReadsElementary ("bytes" ++ toString n).toList (.fixedBytes n) := by
  apply readsElementary_of_parse
  exact parseElementary_bytes (parseUsize_toString h)

theorem ElementaryName.reads {cs : List Char} {t : AbiType} (h : ElementaryName cs t) :
    ReadsElementary cs t := by
  cases h with
  | address => exact ⟨by decide, rfl⟩
  | bool => exact ⟨by decide, rfl⟩
  | string => exact ⟨by decide, rfl⟩
  | bytes => exact ⟨by decide, rfl⟩
  | uint => exact ⟨by decide, rfl⟩
  | int => exact ⟨by decide, rfl⟩
  | uintWidth bits hw =>
    have hle := hw.2.1
    exact readsElementary_uint (by omega)
  | intWidth bits hw =>
    have hle := hw.2.1
    exact readsElementary_int (by omega)
  | fixedBytes n hn => exact readsElementary_fixedBytes (by omega)

theorem ElementaryName.isElementary {cs : List Char} {t : AbiType} (h : ElementaryName cs t) :
    t.isElementary = true := by
  cases h <;> rfl

/-- No tuple occurs in the type, and each width and length is a number of `usize`. -/
def AbiType.TupleFree : AbiType → Prop
  | .uint bits => bits < 2 ^ 64
  | .int bits => bits < 2 ^ 64
  | .address => True
  | .bool => True
  | .fixedBytes n => n < 2 ^ 64
  | .bytes => True
  | .string => True
  | .array inner => inner.TupleFree
  | .fixedArray inner len => inner.TupleFree ∧ len < 2 ^ 64
  | .tuple _ => False

/-- The text of a type, taken apart into the elementary type in the middle and the suffixes. -/
def Written (t : AbiType) : Prop :=
  ∃ base b pieces, Peeled SuffixText peelSuffix t.toSolString.toList base pieces ∧
    parseElementary base = .ok b ∧ b.wrap (pieces.map Prod.snd) = t

theorem Written.of_reads {t : AbiType} (h : ReadsElementary t.toSolString.toList t) : Written t :=
  ⟨_, t, [], ⟨h.bare, by simp, by simp⟩, h.parse, rfl⟩

theorem Written.layer {t u : AbiType} (h : Written t) {text : List Char} {d : Option ℕ}
    (htext : SuffixText text d) (hu : u = t.layer d)
    (hstring : u.toSolString.toList = t.toSolString.toList ++ text) : Written u := by
  obtain ⟨base, b, pieces, hpeeled, hparse, hwrap⟩ := h
  refine ⟨base, b, pieces ++ [(text, d)], ⟨hpeeled.bare, ?_, ?_⟩, hparse, ?_⟩
  · intro p hp
    rcases List.mem_append.mp hp with hp | hp
    · exact hpeeled.all_pieces p hp
    · rw [List.mem_singleton.mp hp]
      exact htext
  · rw [hstring, hpeeled.text, flatMap_concat, List.append_assoc]
  · rw [hu, ← hwrap, AbiType.wrap, List.map_append, List.foldl_append]
    rfl

theorem AbiType.TupleFree.written : ∀ {t : AbiType}, t.TupleFree → Written t
  | .uint _, h => .of_reads (readsElementary_uint h)
  | .int _, h => .of_reads (readsElementary_int h)
  | .fixedBytes _, h => .of_reads (readsElementary_fixedBytes h)
  | .address, _ => .of_reads ElementaryName.address.reads
  | .bool, _ => .of_reads ElementaryName.bool.reads
  | .bytes, _ => .of_reads ElementaryName.bytes.reads
  | .string, _ => .of_reads ElementaryName.string.reads
  | .array inner, h => by
    have hinner : Written inner := written (t := inner) h
    have hsuffix : SuffixText ['[', ']'] none := rfl
    refine hinner.layer hsuffix rfl ?_
    rw [toSolString, String.toList_append]
    rfl
  | .fixedArray inner len, h => by
    have hinner : Written inner := written (t := inner) h.1
    refine hinner.layer (d := some len) ⟨_, parseUsize_toString h.2, rfl⟩ rfl ?_
    rw [toSolString, String.toList_append, String.toList_append, String.toList_append,
      List.append_assoc, List.append_assoc]
    rfl

/-- The type strings of types without tuples are read back. -/
theorem parseTypeString_toSolString {t : AbiType} (h : t.TupleFree) :
    parseTypeString t.toSolString = .ok t := by
  obtain ⟨base, b, pieces, hpeeled, hparse, hwrap⟩ := h.written
  rw [parseTypeString_eq hpeeled, hparse, ← hwrap]
  rfl

theorem parseTypeString_toSolString_rows :
    parseTypeString (AbiType.fixedArray (.array (.uint 7)) 3).toSolString =
      .ok (.fixedArray (.array (.uint 7)) 3) :=
  parseTypeString_toSolString ⟨by show 7 < 2 ^ 64; decide, by decide⟩

/-- A suffix of a Solidity type: `[]`, or decimal digits between brackets. -/
def DigitSuffix (text : List Char) : Option ℕ → Prop
  | none => text = ['[', ']']
  | some n => ∃ ds, IsDigits ds ∧ decimal ds = n ∧ text = '[' :: (ds ++ [']'])

/-- The text is an elementary type name with array suffixes behind it, and denotes the type. -/
def SolidityType (cs : List Char) (t : AbiType) : Prop :=
  ∃ name b, ElementaryName name b ∧ ∃ pieces : List (List Char × Option ℕ),
    (∀ p ∈ pieces, DigitSuffix p.1 p.2) ∧ cs = name ++ pieces.flatMap Prod.fst ∧
      t = b.wrap (pieces.map Prod.snd)

theorem DigitSuffix.opens {text : List Char} {d : Option ℕ} (h : DigitSuffix text d) :
    Opens '[' text := by
  cases d with
  | none => exact ⟨[']'], by decide, h⟩
  | some n =>
    obtain ⟨ds, hds, -, rfl⟩ := h
    have hopen := bracket_not_mem_digits (c := '[') hds (by decide)
    exact ⟨ds ++ [']'], by simp [hopen], rfl⟩

theorem SuffixText.opens {text : List Char} {d : Option ℕ} (h : SuffixText text d) :
    Opens '[' text := by
  cases d with
  | none => exact ⟨[']'], by decide, h⟩
  | some n =>
    obtain ⟨u, hu, rfl⟩ := h
    have hopen := (parseUsize_plain hu).2.1
    exact ⟨u ++ [']'], by simp [hopen], rfl⟩

theorem DigitSuffix.plus_not_mem {text : List Char} {d : Option ℕ} (h : DigitSuffix text d) :
    '+' ∉ text := by
  cases d with
  | none =>
    obtain rfl : text = ['[', ']'] := h
    decide
  | some n =>
    obtain ⟨ds, hds, -, rfl⟩ := h
    have hplus := bracket_not_mem_digits (c := '+') hds (by decide)
    simp [hplus]

theorem SuffixText.digitSuffix {text : List Char} {d : Option ℕ} (h : SuffixText text d)
    (hplus : '+' ∉ text) : DigitSuffix text d := by
  cases d with
  | none => exact h
  | some n =>
    obtain ⟨u, hu, rfl⟩ := h
    obtain ⟨ds, hds, hn, -, rfl | rfl⟩ := digits_of_parseUsize hu
    · exact ⟨u, hds, hn, rfl⟩
    · exact absurd (by simp) hplus

theorem AbiType.wrap_concat (b : AbiType) (ds : List (Option ℕ)) (d : Option ℕ) :
    b.wrap (ds ++ [d]) = (b.wrap ds).layer d := by
  rw [wrap, List.foldl_append]
  rfl

theorem AbiType.layer_not_elementary (t : AbiType) (d : Option ℕ) :
    (t.layer d).isElementary = false := by
  cases d <;> rfl

theorem AbiType.wrap_inj {b b' : AbiType} {ds ds' : List (Option ℕ)} (hb : b.isElementary = true)
    (hb' : b'.isElementary = true) (h : b.wrap ds = b'.wrap ds') : b = b' ∧ ds = ds' := by
  induction ds using List.reverseRecOn generalizing ds' with
  | nil =>
    rcases List.eq_nil_or_concat ds' with rfl | ⟨es, e, rfl⟩
    · exact ⟨h, rfl⟩
    · have hlayer := (b'.wrap es).layer_not_elementary e
      rw [← wrap_concat, ← List.concat_eq_append, ← h] at hlayer
      exact absurd (hb.symm.trans hlayer) (by decide)
  | append_singleton ds d ih =>
    rcases List.eq_nil_or_concat ds' with rfl | ⟨es, e, rfl⟩
    · have hlayer := (b.wrap ds).layer_not_elementary d
      rw [← wrap_concat, h] at hlayer
      exact absurd (hb'.symm.trans hlayer) (by decide)
    · rw [List.concat_eq_append, wrap_concat, wrap_concat] at h
      have hinner : b.wrap ds = b'.wrap es ∧ d = e := by
        cases d with
        | none =>
          cases e with
          | none => exact ⟨AbiType.array.inj h, rfl⟩
          | some m => cases h
        | some n =>
          cases e with
          | none => cases h
          | some m => exact ⟨(AbiType.fixedArray.inj h).1, congrArg some (AbiType.fixedArray.inj h).2⟩
      obtain ⟨hbase, hds⟩ := ih hinner.1
      exact ⟨hbase, by rw [List.concat_eq_append, hds, hinner.2]⟩

/-- An accepted string is a Solidity type and is read as what it denotes; any other one is an
unknown type. -/
structure ReadsSolidity (s : String) : Prop where
  sound : ∀ t, parseTypeString s = .ok t → SolidityType s.toList t
  rejects : (¬∃ t, SolidityType s.toList t) → ∃ name, parseTypeString s = .error (.unknownType name)

/-- The parser reads Solidity's types where, behind the suffixes that it takes off, it comes to no
other text that begins like an integer or bytes type, and no suffix has a plus sign. -/
theorem parseTypeString_solidity_iff (s : String) :
    ReadsSolidity s ↔ ∀ base pieces, Peeled SuffixText peelSuffix s.toList base pieces →
      Accepted base → (∃ t, ElementaryName base t) ∧ ∀ p ∈ pieces, '+' ∉ p.1 := by
  constructor
  · intro h base pieces hpeeled haccepted
    obtain ⟨b, hparse, hb⟩ := parseElementary_of_accepted haccepted
    have hread := parseTypeString_eq hpeeled
    rw [hparse] at hread
    obtain ⟨name, b', hname, pieces', hpieces', htext, hwrap⟩ := h.sound _ hread
    -- both ways to take the string apart have as many suffixes, so they are the same
    obtain ⟨rfl, hlayers⟩ := AbiType.wrap_inj hb hname.isElementary hwrap
    have hlen : (pieces.map Prod.fst).length = (pieces'.map Prod.fst).length := by
      have hcount := congrArg List.length hlayers
      rw [List.length_map, List.length_map] at hcount ⊢
      exact hcount
    have hsame := flatten_inj_of_opens (c := '[') (x := base) (y := name)
      (fun text htext => by
        obtain ⟨p, hp, rfl⟩ := List.mem_map.mp htext
        exact (hpeeled.all_pieces p hp).opens)
      (fun text htext => by
        obtain ⟨p, hp, rfl⟩ := List.mem_map.mp htext
        exact (hpieces' p hp).opens) hlen
      (by
        rw [← List.flatMap_def, ← List.flatMap_def, ← hpeeled.text]
        exact htext)
    rw [hsame.1]
    refine ⟨⟨b, hname⟩, fun p hp => ?_⟩
    obtain ⟨p', hp', heq⟩ := List.mem_map.mp (hsame.2 ▸ List.mem_map_of_mem hp)
    rw [← heq]
    exact (hpieces' p' hp').plus_not_mem
  · intro h
    obtain ⟨base, pieces, hpeeled⟩ := peels_suffix.exists_peeled s.toList
    have hread := parseTypeString_eq hpeeled
    by_cases haccepted : Accepted base
    · obtain ⟨⟨b, hname⟩, hplus⟩ := h base pieces hpeeled haccepted
      rw [hname.reads.parse] at hread
      have htype : SolidityType s.toList (b.wrap (pieces.map Prod.snd)) :=
        ⟨base, b, hname, pieces,
          fun p hp => (hpeeled.all_pieces p hp).digitSuffix (hplus p hp), hpeeled.text, rfl⟩
      constructor
      · intro t ht
        rw [hread] at ht
        cases ht
        exact htype
      · intro hnone
        exact absurd ⟨_, htype⟩ hnone
    · rw [parseElementary_of_not_accepted haccepted] at hread
      constructor
      · intro t ht
        rw [hread] at ht
        cases ht
      · exact fun _ => ⟨_, hread⟩

/-- Anything behind `uint` is read as 256 bits. -/
theorem parseTypeString_not_solidity : ¬∀ s : String, ReadsSolidity s := by
  intro h
  obtain ⟨name, b, hname, pieces, hpieces, htext, htype⟩ := (h "uintfoo").sound (.uint 256) rfl
  have hnone : pieces = [] := by
    cases pieces with
    | nil => rfl
    | cons p ps =>
      -- a suffix would bring a bracket into the text
      obtain ⟨u, -, hu⟩ := (hpieces p List.mem_cons_self).opens
      have hopen : '[' ∈ "uintfoo".toList := by
        rw [htext, List.flatMap_cons, hu]
        simp
      exact absurd hopen (by decide)
  subst hnone
  obtain rfl : AbiType.uint 256 = b := htype
  rw [List.flatMap_nil, List.append_nil] at htext
  rw [← htext] at hname
  generalize hcs : "uintfoo".toList = cs at hname
  cases hname with
  | uint => exact absurd hcs (by decide)
  | uintWidth _ _ => exact absurd hcs (by decide)

-- a width out of range, a number that is too large for `usize`, and one with a plus sign
example : parseTypeString "int0" = .ok (.int 0) ∧
    parseTypeString "uint8[18446744073709551616]" = .ok (.uint 256) ∧
    parseTypeString "bool[+2]" = .ok (.fixedArray .bool 2) := ⟨rfl, rfl, rfl⟩

/-- `tuple` with array suffixes behind it, the innermost first. -/
def TupleText (cs : List Char) (layers : List (Option ℕ)) : Prop :=
  ∃ pieces : List (List Char × Option ℕ), (∀ p ∈ pieces, DigitSuffix p.1 p.2) ∧
    cs = "tuple".toList ++ pieces.flatMap Prod.fst ∧ layers = pieces.map Prod.snd

/-- `parse_type_string` knows no type that begins with this letter, whatever suffixes it has. -/
theorem parseTypeString_of_t {s : String} {cs : List Char} (hs : s.toList = 't' :: cs) :
    ∃ name, parseTypeString s = .error (.unknownType name) := by
  obtain ⟨base, pieces, hpeeled⟩ := peels_suffix.exists_peeled s.toList
  have hunknown : ¬Accepted base := by
    have htext := hpeeled.text
    rw [hs] at htext
    cases base with
    | nil =>
      cases pieces with
      | nil => cases htext
      | cons p ps =>
        -- the text does not begin with a suffix
        obtain ⟨u, -, hu⟩ := (hpeeled.all_pieces p List.mem_cons_self).opens
        rw [List.flatMap_cons, hu] at htext
        exact absurd (List.cons.inj htext).1 (by decide)
    | cons c base =>
      obtain rfl : 't' = c := (List.cons.inj htext).1
      rintro (hname | ⟨rest, hrest⟩ | ⟨rest, hrest⟩ | ⟨rest, -, hrest⟩)
      · simp at hname
      · exact absurd (List.cons.inj hrest).1 (by decide)
      · exact absurd (List.cons.inj hrest).1 (by decide)
      · exact absurd (List.cons.inj hrest).1 (by decide)
  have hread := parseTypeString_eq hpeeled
  rw [parseElementary_of_not_accepted hunknown] at hread
  exact ⟨_, hread⟩

theorem TupleText.layers_iff {s : String} {layers : List (Option ℕ)}
    (h : TupleText s.toList layers) :
    (layers = [] ↔ s = "tuple") ∧ (layers = [none] ↔ s = "tuple[]") := by
  obtain ⟨pieces, hpieces, htext, rfl⟩ := h
  have hopens : ∀ text ∈ pieces.map Prod.fst, Opens '[' text := by
    intro text htext
    obtain ⟨p, hp, rfl⟩ := List.mem_map.mp htext
    exact (hpieces p hp).opens
  have hnil : s = "tuple" ↔ pieces.flatMap Prod.fst = [] := by
    rw [← String.toList_inj, htext, List.append_right_eq_self]
  have hone : s = "tuple[]" ↔ pieces.flatMap Prod.fst = ['[', ']'] := by
    have hsplit : "tuple[]".toList = "tuple".toList ++ ['[', ']'] := rfl
    rw [← String.toList_inj, htext, hsplit, List.append_right_inj]
  rw [hnil, hone]
  cases pieces with
  | nil => simp
  | cons p ps =>
    obtain ⟨u, hu, hp⟩ := (hpieces p List.mem_cons_self).opens
    refine ⟨by simp [hp], ?_⟩
    constructor
    · intro hlayers
      obtain ⟨hfirst, hrest⟩ := List.cons.inj hlayers
      obtain rfl : ps = [] := List.map_eq_nil_iff.mp hrest
      have hdigits := hpieces p List.mem_cons_self
      rw [hfirst] at hdigits
      have hbrackets : p.1 = ['[', ']'] := hdigits
      simp [hbrackets]
    · intro hbrackets
      have hrest : ps = [] := by
        cases ps with
        | nil => rfl
        | cons q qs =>
          -- a second suffix would bring a second opening bracket
          obtain ⟨v, -, hq⟩ := (hpieces q (by simp)).opens
          rw [List.flatMap_cons, List.flatMap_cons, hp, hq] at hbrackets
          have htail := (List.cons.inj hbrackets).2
          have hmem : '[' ∈ [']'] := by
            rw [← htail]
            simp
          exact absurd hmem (by decide)
      subst hrest
      rw [List.flatMap_cons, List.flatMap_nil, List.append_nil] at hbrackets
      have hdigits := hpieces p List.mem_cons_self
      cases hd : p.2 with
      | none => rw [List.map_cons, hd, List.map_nil]
      | some n =>
        rw [hd] at hdigits
        obtain ⟨ds, hds, -, htext⟩ := hdigits
        have hempty : ds = [] := by
          rw [hbrackets] at htext
          have hinner : [] ++ [']'] = ds ++ [']'] := (List.cons.inj htext).2
          exact (List.append_cancel_right hinner).symm
        exact absurd hempty hds.1

/-- What `parse_param` takes for the name and the `indexed` flag of a parameter. -/
def paramName (members : List Member) : String :=
  ((Json.find "name" members).bind Json.asStr).getD ""

def paramIndexed (members : List Member) : Bool :=
  ((Json.find "indexed" members).bind Json.asBool).getD false

/-- A tuple parameter is read exactly without suffixes, or with one pair of empty brackets. -/
theorem parseParam_tuple_iff {members : List Member} {s : String} {layers : List (Option ℕ)}
    {params : List AbiParam} (htype : Json.find "type" members = some (.string s))
    (hs : TupleText s.toList layers) (hparams : parseComponents members = .ok params) :
    parseParam (.object members) = .ok (.mk (paramName members)
      ((AbiType.tuple params).wrap layers) (paramIndexed members)) ↔
      layers = [] ∨ layers = [none] := by
  obtain ⟨hnil, hone⟩ := hs.layers_iff
  rw [hnil, hone, parseParam, htype]
  dsimp only [Option.bind_some, Json.asStr]
  by_cases htuple : s = "tuple" ∨ s = "tuple[]"
  · rw [if_pos htuple, hparams]
    refine iff_of_true ?_ htuple
    rcases htuple with rfl | rfl
    · rw [hnil.mpr rfl]
      rfl
    · rw [hone.mpr rfl]
      rfl
  · rw [if_neg htuple]
    refine iff_of_false ?_ htuple
    obtain ⟨pieces, -, htext, -⟩ := hs
    have hhead : s.toList = 't' :: ("uple".toList ++ pieces.flatMap Prod.fst) := htext
    obtain ⟨name, herr⟩ := parseTypeString_of_t hhead
    rw [herr]
    intro h
    cases h

/-- `{"name": "flags", "type": .., "components": [{"type": "bool"}]}`. -/
def flagsMembers (type : String) : List Member :=
  [.mk "name" (.string "flags"), .mk "type" (.string type), .mk "components"
    (.array [.object [.mk "type" (.string "bool")]])]

theorem parseParam_tuple_iff_flags :
    parseParam (.object (flagsMembers "tuple[]")) =
      .ok (.mk "flags" (.array (.tuple [.mk "" .bool false])) false) := by
  have htext : TupleText "tuple[]".toList [none] := ⟨[(['[', ']'], none)], by simp [DigitSuffix], rfl, rfl⟩
  have hfind : Json.find "type" (flagsMembers "tuple[]") = some (.string "tuple[]") := rfl
  exact (parseParam_tuple_iff hfind htext rfl).mpr (Or.inr rfl)

/-- An array of two tuples is an unknown type. -/
theorem parseParam_not_tuple :
    ¬∀ (members : List Member) (s : String) (layers : List (Option ℕ)) (params : List AbiParam),
      Json.find "type" members = some (.string s) → TupleText s.toList layers →
      parseComponents members = .ok params →
      parseParam (.object members) = .ok (.mk (paramName members)
        ((AbiType.tuple params).wrap layers) (paramIndexed members)) := by
  intro h
  have htext : TupleText "tuple[2]".toList [some 2] := by
    have hdigits : IsDigits ['2'] := by
      refine ⟨List.cons_ne_nil _ _, fun c hc => ?_⟩
      rw [List.mem_singleton.mp hc]
      decide
    refine ⟨[(['[', '2', ']'], some 2)], ?_, rfl, rfl⟩
    intro p hp
    rw [List.mem_singleton.mp hp]
    exact ⟨['2'], hdigits, rfl, rfl⟩
  have hok := h (flagsMembers "tuple[2]") "tuple[2]" _ _ rfl htext rfl
  have hunknown : parseParam (.object (flagsMembers "tuple[2]")) = .error (.unknownType "tuple") := rfl
  rw [hunknown] at hok
  cases hok

end ForgeIndex
