import ForgeIndex.Abi.Parser
import ForgeIndex.Lib.RustText

/-!
# Generated event types

`forge-index-cli/src/commands/codegen.rs`: the `struct` that is written for an event of an ABI, and
what a Rust compiler reads there.
-/

namespace ForgeIndex.Cli

open RustText

mutual

def abiTypeToRust : AbiType → String
  | .address => "Address"
  | .bool => "bool"
  | .uint bits => if bits ≤ 64 then "u64" else if bits ≤ 128 then "u128" else "String"
  | .int bits => if bits ≤ 64 then "i64" else if bits ≤ 128 then "i128" else "String"
  | .fixedBytes n => "[u8; " ++ toString n ++ "]"
  | .bytes => "Vec<u8>"
  | .string => "String"
  | .array inner => "Vec<" ++ abiTypeToRust inner ++ ">"
  | .fixedArray inner n => "[" ++ abiTypeToRust inner ++ "; " ++ toString n ++ "]"
  | .tuple params => "(" ++ ", ".intercalate (paramTypesToRust params) ++ ")"

/-- The types of the components of a tuple. -/
def paramTypesToRust : List AbiParam → List String
  | [] => []
  | .mk _ t _ :: ps => abiTypeToRust t :: paramTypesToRust ps

end

/-- The keywords that are written as raw identifiers. -/
def escaped : List String :=
  ["type", "self", "Self", "fn", "mod", "use", "pub", "let", "mut", "ref", "as", "in", "for", "if",
    "else", "return", "match", "loop", "while", "break", "continue", "struct", "enum", "trait",
    "impl", "where", "move"]

def sanitizeName (name : String) : String :=
  let name := if name = "" then "unnamed" else name
  if name ∈ escaped then "r#" ++ name else name

def fieldLine (param : AbiParam) : String :=
  "    pub " ++ sanitizeName param.name ++ ": " ++ abiTypeToRust param.abiType ++ ",\n"

def generateEventStruct (contractName : String) (event : AbiEvent) : String :=
  let structName := event.name ++ "Args"
  let code := "/// Event args for `" ++ contractName ++ "." ++ event.name ++ "`.\n" ++
    "/// Signature: `" ++ event.signature ++ "`\n" ++ "#[derive(Debug, Clone)]\n" ++
    "pub struct " ++ structName ++ " \x7b\n"
  let code := event.inputs.foldl (fun code param => code ++ fieldLine param) code
  code ++ "\x7d\n\n" ++ "impl " ++ structName ++ " \x7b\n" ++
    "    pub const EVENT_NAME: &'static str = \"" ++ event.name ++ "\";\n" ++
    "    pub const SELECTOR: &'static str = \"" ++ event.selector.display ++ "\";\n" ++ "\x7d\n"

def namedType (w : String) : RustType := .name w.toList

mutual

/-- The Rust type of the values; a tuple of one component is that component. -/
def rustType : AbiType → RustType
  | .address => namedType "Address"
  | .bool => namedType "bool"
  | .uint bits => namedType (if bits ≤ 64 then "u64" else if bits ≤ 128 then "u128" else "String")
  | .int bits => namedType (if bits ≤ 64 then "i64" else if bits ≤ 128 then "i128" else "String")
  | .fixedBytes n => .array (namedType "u8") n
  | .bytes => .vec (namedType "u8")
  | .string => namedType "String"
  | .array inner => .vec (rustType inner)
  | .fixedArray inner n => .array (rustType inner) n
  | .tuple params => grouped (rustTypes params)

def rustTypes : List AbiParam → List RustType
  | [] => []
  | .mk _ t _ :: ps => rustType t :: rustTypes ps

end

/-- A `struct` with its fields, and the two constants of its `impl`. -/
structure EventStruct where
  name : List Char
  fields : List (List Char × RustType)
  eventName : List Char
  selector : List Char

def fieldName (param : AbiParam) : List Char :=
  if param.name = "" then "unnamed".toList else param.name.toList

def eventStruct (event : AbiEvent) : EventStruct where
  name := event.name.toList ++ "Args".toList
  fields := event.inputs.map fun p => (fieldName p, rustType p.abiType)
  eventName := event.name.toList
  selector := event.selector.display.toList

/-- The words that no escape makes a name of, or that are written without one. -/
def unusable : List (List Char) :=
  ["self", "Self", "crate", "const", "extern", "false", "static", "super", "true", "unsafe", "async",
    "await", "dyn", "abstract", "become", "box", "do", "final", "macro", "override", "priv", "try",
    "typeof", "unsized", "virtual", "yield", "_"].map String.toList

/-- The inputs have names of their own, and all of them can be fields. -/
def Usable (event : AbiEvent) : Prop :=
  (event.inputs.map fieldName).Nodup ∧ ∀ p ∈ event.inputs, fieldName p ∉ unusable

theorem usable_iff (event : AbiEvent) : Usable event ↔ (event.inputs.map fieldName).Nodup ∧
    event.inputs.all (fun p => !unusable.contains (fieldName p)) = true := by
  simp [Usable]

instance (event : AbiEvent) : Decidable (Usable event) := decidable_of_iff' _ (usable_iff event)

/-- A comment line. -/
def readDoc (s : List Char) : Option (List Char) :=
  (expect "/// ".toList s).bind fun s => expect ['\n'] (s.dropWhile (· ≠ '\n'))

def readString (s : List Char) : Option (List Char × List Char) :=
  (expect ['"'] s).bind fun s => (expect ['"'] (s.dropWhile (· ≠ '"'))).map fun r =>
    (s.takeWhile (· ≠ '"'), r)

/-- A `struct` behind two comment lines, with the constants; no two fields have one name. -/
def readEventStruct (s : List Char) : Option EventStruct := do
  let s ← readDoc s
  let s ← readDoc s
  let s ← expect "#[derive(Debug, Clone)]\npub struct ".toList s
  let name ← readIdent s
  let s ← expect " \x7b\n".toList name.2
  let fields ← readFields s.length s
  let s ← expect "\x7d\n\nimpl ".toList fields.2
  let s ← expect name.1 s
  let s ← expect " \x7b\n    pub const EVENT_NAME: &'static str = ".toList s
  let eventName ← readString s
  let s ← expect ";\n    pub const SELECTOR: &'static str = ".toList eventName.2
  let selector ← readString s
  let s ← expect ";\n\x7d\n".toList selector.2
  if s = [] ∧ (fields.1.map Prod.fst).Nodup then
    some { name := name.1, fields := fields.1, eventName := eventName.1, selector := selector.1 }
  else none

theorem read_name {w : String} {k : ℕ} {r : List Char}
    (h : (w.toList.head?.any identStart && w.toList.all identCont) = true)
    (hkeyword : w.toList ∉ keywords) (hk : w.length ≤ k) (hrest : TypeEnds r) :
    readType k (w.toList ++ r) = some (namedType w, r) := by
  have hword := isWord_of_all h
  obtain ⟨c, hc, -⟩ := hword.1
  obtain ⟨v, hv⟩ : ∃ v, w.toList = c :: v := List.head?_eq_some_iff.mp hc
  have hlength : w.length = v.length + 1 := by rw [← String.length_toList, hv, List.length_cons]
  obtain ⟨k, rfl⟩ := Nat.exists_eq_add_one.mpr (by omega : 0 < k)
  exact readType_name hword hkeyword hrest k

theorem abiTypeToRust_head (t : AbiType) (r : List Char) :
    ∀ c ∈ ((abiTypeToRust t).toList ++ r).head?, c ≠ ')' := by
  cases t <;> simp [abiTypeToRust] <;> split_ifs <;> simp

theorem paramTypes_cons_cons (p q : AbiParam) (ps : List AbiParam) :
    ", ".intercalate (paramTypesToRust (p :: q :: ps)) =
      abiTypeToRust p.abiType ++ ", " ++ ", ".intercalate (paramTypesToRust (q :: ps)) := by
  cases p
  cases q
  rw [paramTypesToRust, paramTypesToRust, String.intercalate_cons_cons]
  rfl

theorem paramTypes_singleton (p : AbiParam) :
    ", ".intercalate (paramTypesToRust [p]) = abiTypeToRust p.abiType := by
  cases p
  rw [paramTypesToRust, paramTypesToRust, String.intercalate_singleton]
  rfl

theorem rustTypes_cons (p : AbiParam) (ps : List AbiParam) :
    rustTypes (p :: ps) = rustType p.abiType :: rustTypes ps := by
  cases p
  rw [rustTypes]
  rfl

theorem read_bytesOf {s : List Char} {k : ℕ} (hk : 3 ≤ k) (hs : TypeEnds s) :
    readType k ("u8".toList ++ s) = some (namedType "u8", s) :=
  read_name (by decide) (by decide) (le_trans (by decide) hk) hs

mutual

theorem read_abiTypeToRust (t : AbiType) {k : ℕ} {r : List Char}
    (hk : (abiTypeToRust t).length ≤ k) (hrest : TypeEnds r) :
    readType k ((abiTypeToRust t).toList ++ r) = some (rustType t, r) := by
  match t with
  | .address => exact read_name (by decide) (by decide) hk hrest
  | .bool => exact read_name (by decide) (by decide) hk hrest
  | .string => exact read_name (by decide) (by decide) hk hrest
  | .uint bits =>
    unfold abiTypeToRust at hk ⊢
    unfold rustType
    split_ifs at hk ⊢ <;> exact read_name (by decide) (by decide) hk hrest
  | .int bits =>
    unfold abiTypeToRust at hk ⊢
    unfold rustType
    split_ifs at hk ⊢ <;> exact read_name (by decide) (by decide) hk hrest
  | .bytes =>
    have hlength : (abiTypeToRust .bytes).length = 7 := by decide
    obtain ⟨k, rfl⟩ := Nat.exists_eq_add_one.mpr (by omega : 0 < k)
    have hinner := read_bytesOf (k := k) (by omega) (typeEnds_of (by decide : _ ∧ '>' ≠ '<') r)
    have htext : (abiTypeToRust .bytes).toList ++ r =
        "Vec<".toList ++ ("u8".toList ++ '>' :: r) := by simp [abiTypeToRust]
    rw [htext, readType_vec hinner, rustType]
  | .fixedBytes n =>
    have htext : (abiTypeToRust (.fixedBytes n)).toList ++ r =
        '[' :: ("u8".toList ++ ';' :: ' ' :: ((toString n).toList ++ ']' :: r)) := by
      simp [abiTypeToRust]
    have hlength := congrArg List.length htext
    have hu8 : ("u8" : String).length = 2 := by decide
    simp only [List.length_append, List.length_cons, String.length_toList] at hlength
    obtain ⟨k, rfl⟩ := Nat.exists_eq_add_one.mpr (by omega : 0 < k)
    have hinner := read_bytesOf (k := k) (by omega)
      (typeEnds_of (by decide : _ ∧ ';' ≠ '<') (' ' :: ((toString n).toList ++ ']' :: r)))
    rw [htext, readType_array hinner, rustType]
  | .array inner =>
    have htext : (abiTypeToRust (.array inner)).toList ++ r =
        "Vec<".toList ++ ((abiTypeToRust inner).toList ++ '>' :: r) := by
      rw [abiTypeToRust]
      simp
    have hlength := congrArg List.length htext
    have hvec : ("Vec<" : String).length = 4 := by decide
    simp only [List.length_append, List.length_cons, String.length_toList] at hlength
    obtain ⟨k, rfl⟩ := Nat.exists_eq_add_one.mpr (by omega : 0 < k)
    have hinner := read_abiTypeToRust inner (k := k) (by omega)
      (typeEnds_of (by decide : _ ∧ '>' ≠ '<') r)
    rw [htext, readType_vec hinner, rustType]
  | .fixedArray inner n =>
    have htext : (abiTypeToRust (.fixedArray inner n)).toList ++ r =
        '[' :: ((abiTypeToRust inner).toList ++ ';' :: ' ' ::
          ((toString n).toList ++ ']' :: r)) := by
      rw [abiTypeToRust]
      simp
    have hlength := congrArg List.length htext
    simp only [List.length_append, List.length_cons, String.length_toList] at hlength
    obtain ⟨k, rfl⟩ := Nat.exists_eq_add_one.mpr (by omega : 0 < k)
    have hinner := read_abiTypeToRust inner (k := k) (by omega)
      (typeEnds_of (by decide : _ ∧ ';' ≠ '<') (' ' :: ((toString n).toList ++ ']' :: r)))
    rw [htext, readType_array hinner, rustType]
  | .tuple [] =>
    have hlength : (abiTypeToRust (.tuple [])).length = 2 := by decide
    obtain ⟨k, rfl⟩ := Nat.exists_eq_add_one.mpr (by omega : 0 < k)
    have htext : (abiTypeToRust (.tuple [])).toList ++ r = '(' :: ')' :: r := by
      simp [abiTypeToRust, paramTypesToRust]
    rw [htext, readType_unit, rustType, rustTypes]
    rfl
  | .tuple (p :: ps) =>
    have htext : (abiTypeToRust (.tuple (p :: ps))).toList ++ r =
        '(' :: ((", ".intercalate (paramTypesToRust (p :: ps))).toList ++ ')' :: r) := by
      rw [abiTypeToRust]
      simp
    have hlength := congrArg List.length htext
    simp only [List.length_append, List.length_cons, String.length_toList] at hlength
    obtain ⟨k, rfl⟩ := Nat.exists_eq_add_one.mpr (by omega : 0 < k)
    have hinner := read_paramTypesToRust p ps (k := k) (r := r) (by omega)
    have hhead : ∀ c ∈ ((", ".intercalate (paramTypesToRust (p :: ps))).toList ++
        ')' :: r).head?, c ≠ ')' := by
      cases ps with
      | nil =>
        rw [paramTypes_singleton]
        exact abiTypeToRust_head _ _
      | cons q ps =>
        rw [paramTypes_cons_cons, String.toList_append, String.toList_append, List.append_assoc,
          List.append_assoc]
        exact abiTypeToRust_head _ _
    rw [htext, readType_group hhead hinner, rustType]

theorem read_paramTypesToRust (p : AbiParam) (ps : List AbiParam) {k : ℕ} {r : List Char}
    (hk : (", ".intercalate (paramTypesToRust (p :: ps))).length < k) :
    readTypes k ((", ".intercalate (paramTypesToRust (p :: ps))).toList ++ ')' :: r) =
      some (rustTypes (p :: ps), ')' :: r) := by
  match p, ps with
  | .mk n t i, [] =>
    rw [paramTypes_singleton] at hk ⊢
    obtain ⟨k, rfl⟩ := Nat.exists_eq_add_one.mpr (by omega : 0 < k)
    have hfirst := read_abiTypeToRust t (k := k) (Nat.le_of_lt_succ hk)
      (typeEnds_of (by decide : _ ∧ ')' ≠ '<') r)
    rw [rustTypes_cons]
    exact readTypes_last (by simp) hfirst
  | .mk n t i, q :: ps =>
    rw [paramTypes_cons_cons] at hk ⊢
    rw [String.length_append, String.length_append] at hk
    obtain ⟨k, rfl⟩ := Nat.exists_eq_add_one.mpr (by omega : 0 < k)
    have hcomma : (", " : String).length = 2 := by decide
    rw [AbiParam.abiType_mk] at hk
    have htail := read_paramTypesToRust q ps (k := k) (r := r) (by omega)
    have hfirst := read_abiTypeToRust t (k := k) (by omega) (typeEnds_of (by decide : _ ∧ ',' ≠ '<')
      (' ' :: ((", ".intercalate (paramTypesToRust (q :: ps))).toList ++ ')' :: r)))
    have htext : (abiTypeToRust (AbiParam.mk n t i).abiType ++ ", " ++
        ", ".intercalate (paramTypesToRust (q :: ps))).toList ++ ')' :: r =
        (abiTypeToRust t).toList ++ ',' :: ' ' ::
          ((", ".intercalate (paramTypesToRust (q :: ps))).toList ++ ')' :: r) := by simp
    rw [htext, rustTypes_cons]
    exact readTypes_cons hfirst htail

end

theorem readIdent_word {w r : List Char} (hw : IsWord w)
    (hrest : ∀ c ∈ r.head?, identCont c = false ∧ c ≠ '#') :
    readIdent (w ++ r) = if w ∈ keywords then none else some (w, r) := by
  have hends : WordEnds r := fun c hc => (hrest c hc).1
  have hraw : expect ['r', '#'] (w ++ r) = none := by
    obtain ⟨c, hc, -⟩ := hw.1
    obtain ⟨v, rfl⟩ : ∃ v, w = c :: v := List.head?_eq_some_iff.mp hc
    rw [List.cons_append, expect]
    -- a word may begin with the letter of the mark, but no `#` comes after it
    split_ifs
    · apply expect_eq_none
      intro d hd
      cases v with
      | nil => exact (hrest d hd).2
      | cons e v =>
        have hcont := hw.2 e (List.mem_cons_of_mem c List.mem_cons_self)
        rw [← Option.some.inj hd]
        rintro rfl
        exact absurd hcont (by decide)
    · rfl
  unfold readIdent
  rw [hraw]
  exact readWord_append _ hw hends

theorem escaped_unusable : ∀ n ∈ escaped, n.toList ∈ neverNames ↔ n.toList ∈ unusable := by decide

theorem keywords_unusable : ∀ w ∈ keywords, w ∉ unusable → w ∈ escaped.map String.toList := by decide

theorem unusable_keywords : ∀ w ∈ unusable, w ∈ keywords := by decide

/-- A name of an input, where there is one. -/
def NamedWell (p : AbiParam) : Prop := p.name = "" ∨ IsWord p.name.toList

theorem readIdent_sanitizeName {p : AbiParam} (hp : NamedWell p) {r : List Char}
    (hrest : ∀ c ∈ r.head?, identCont c = false ∧ c ≠ '#') :
    readIdent ((sanitizeName p.name).toList ++ r) =
      if fieldName p ∈ unusable then none else some (fieldName p, r) := by
  have hword : IsWord (fieldName p) := by
    unfold fieldName
    split_ifs with hempty
    · exact isWord_of_all (by decide)
    · exact hp.resolve_left hempty
  have hends : WordEnds r := fun c hc => (hrest c hc).1
  obtain ⟨name, hname, htext⟩ : ∃ name : String, fieldName p = name.toList ∧
      sanitizeName p.name = if name ∈ escaped then "r#" ++ name else name := by
    refine ⟨if p.name = "" then "unnamed" else p.name, ?_, rfl⟩
    unfold fieldName
    split_ifs <;> rfl
  rw [htext]
  rw [hname] at hword ⊢
  -- a raw identifier is refused for the few words that are never names, any other for a keyword
  by_cases hescaped : name ∈ escaped
  · have hmark : (if name ∈ escaped then "r#" ++ name else name).toList ++ r =
        ['r', '#'] ++ (name.toList ++ r) := by simp [hescaped]
    rw [hmark, readIdent, expect_append]
    dsimp only
    rw [readWord_append _ hword hends]
    simp only [escaped_unusable name hescaped]
  · rw [if_neg hescaped, readIdent_word hword hrest]
    by_cases hmem : name.toList ∈ unusable
    · rw [if_pos hmem, if_pos (unusable_keywords _ hmem)]
    · rw [if_neg hmem, if_neg]
      intro hkeyword
      obtain ⟨n, hn, heq⟩ := List.mem_map.mp (keywords_unusable _ hkeyword hmem)
      rw [String.toList_injective heq] at hn
      exact hescaped hn

theorem fieldLine_toList (p : AbiParam) : (fieldLine p).toList =
    "    pub ".toList ++ ((sanitizeName p.name).toList ++ ':' :: ' ' ::
      ((abiTypeToRust p.abiType).toList ++ [',', '\n'])) := by
  simp [fieldLine]

theorem readFields_inputs {inputs : List AbiParam} (h : ∀ p ∈ inputs, NamedWell p) {k : ℕ}
    (hk : inputs.length < k) (r : List Char) :
    readFields k ((inputs.flatMap fun p => (fieldLine p).toList) ++ '\x7d' :: r) =
      if ∀ p ∈ inputs, fieldName p ∉ unusable then
        some (inputs.map fun p => (fieldName p, rustType p.abiType), '\x7d' :: r)
      else none := by
  induction inputs generalizing k with
  | nil =>
    obtain ⟨k, rfl⟩ := Nat.exists_eq_add_one.mpr (by omega : 0 < k)
    have hpub : "    pub ".toList = ' ' :: "   pub ".toList := by decide
    have hnext : ∀ c ∈ ('\x7d' :: r).head?, c ≠ ' ' := forall_head_cons (by decide) r
    have hclose : expect "    pub ".toList ('\x7d' :: r) = none := by
      rw [hpub]
      exact expect_eq_none hnext
    rw [List.flatMap_nil, List.nil_append, readFields, hclose, if_pos (by simp)]
    rfl
  | cons p inputs ih =>
    rw [List.length_cons] at hk
    obtain ⟨k, rfl⟩ := Nat.exists_eq_add_one.mpr (by omega : 0 < k)
    have hrest := ih (fun q hq => h q (List.mem_cons_of_mem p hq)) (k := k) (by omega)
    generalize hlines : (inputs.flatMap fun p => (fieldLine p).toList) ++ '\x7d' :: r = lines
      at hrest
    have htext : ((p :: inputs).flatMap fun p => (fieldLine p).toList) ++ '\x7d' :: r =
        "    pub ".toList ++ ((sanitizeName p.name).toList ++ (':' :: ' ' ::
          ((abiTypeToRust p.abiType).toList ++ ',' :: '\n' :: lines))) := by
      rw [List.flatMap_cons, List.append_assoc, hlines, fieldLine_toList]
      simp
    have hident := readIdent_sanitizeName (h p List.mem_cons_self)
      (forall_head_cons (by decide : identCont ':' = false ∧ ':' ≠ '#')
        (' ' :: ((abiTypeToRust p.abiType).toList ++ ',' :: '\n' :: lines)))
    rw [htext, readFields, expect_append]
    dsimp only
    rw [hident]
    by_cases hp : fieldName p ∈ unusable
    · rw [if_pos hp, if_neg fun hall => hall p List.mem_cons_self hp]
      rfl
    · have hcolon : expect [':', ' '] (':' :: ' ' :: ((abiTypeToRust p.abiType).toList ++
          ',' :: '\n' :: lines)) = some ((abiTypeToRust p.abiType).toList ++ ',' :: '\n' :: lines) :=
        expect_append [':', ' '] _
      have htype := read_abiTypeToRust p.abiType
        (k := ((abiTypeToRust p.abiType).toList ++ ',' :: '\n' :: lines).length)
        (r := ',' :: '\n' :: lines) (by rw [List.length_append, String.length_toList]; omega)
        (typeEnds_of (by decide : _ ∧ ',' ≠ '<') _)
      have hcomma : expect [',', '\n'] (',' :: '\n' :: lines) = some lines :=
        expect_append [',', '\n'] lines
      rw [if_neg hp, Option.bind_some, hcolon, Option.bind_some, htype, Option.bind_some, hcomma,
        Option.bind_some, hrest]
      have hcons : (∀ q ∈ p :: inputs, fieldName q ∉ unusable) ↔
          ∀ q ∈ inputs, fieldName q ∉ unusable := by
        constructor
        · exact fun hall q hq => hall q (List.mem_cons_of_mem p hq)
        · intro hall q hq
          rcases List.mem_cons.mp hq with rfl | hq
          · exact hp
          · exact hall q hq
      simp only [hcons]
      split_ifs <;> rfl

theorem readDoc_line {line r : List Char} (h : '\n' ∉ line) :
    readDoc ("/// ".toList ++ (line ++ '\n' :: r)) = some r := by
  have hline := Delimited.takeWhile_word (p := fun c : Char => decide (c ≠ '\n')) (x := line)
    (r := '\n' :: r) (fun c hc => decide_eq_true fun heq => h (heq ▸ hc))
    (fun c hc => by simpa using (Option.some.inj hc).symm)
  rw [readDoc, expect_append, Option.bind_some, hline.2]
  exact expect_append ['\n'] r

theorem readString_quoted {text r : List Char} (h : '"' ∉ text) :
    readString ('"' :: (text ++ '"' :: r)) = some (text, r) := by
  have htext := Delimited.takeWhile_word (p := fun c : Char => decide (c ≠ '"')) (x := text)
    (r := '"' :: r) (fun c hc => decide_eq_true fun heq => h (heq ▸ hc))
    (fun c hc => by simpa using (Option.some.inj hc).symm)
  have hopen : expect ['"'] ('"' :: (text ++ '"' :: r)) = some (text ++ '"' :: r) :=
    expect_append ['"'] _
  have hclose : expect ['"'] ('"' :: r) = some r := expect_append ['"'] r
  rw [readString, hopen, Option.bind_some, htext.1, htext.2, hclose]
  rfl

theorem foldl_fieldLine (inputs : List AbiParam) (code : String) :
    (inputs.foldl (fun code param => code ++ fieldLine param) code).toList =
      code.toList ++ inputs.flatMap fun p => (fieldLine p).toList := by
  induction inputs generalizing code with
  | nil => simp
  | cons p inputs ih => simp [ih]

theorem toList_generateEventStruct (contractName : String) (event : AbiEvent) :
    (generateEventStruct contractName event).toList =
      "/// ".toList ++ (("Event args for ".toList ++ '\x60' :: (contractName.toList ++ '.' ::
        (event.name.toList ++ ['\x60', '.']))) ++ '\n' :: ("/// ".toList ++ (("Signature: ".toList ++
        '\x60' :: (event.signature.toList ++ ['\x60'])) ++ '\n' ::
        ("#[derive(Debug, Clone)]\npub struct ".toList ++
        ((event.name.toList ++ "Args".toList) ++ (" \x7b\n".toList ++
        ((event.inputs.flatMap fun p => (fieldLine p).toList) ++ '\x7d' :: ("\n\nimpl ".toList ++
        ((event.name.toList ++ "Args".toList) ++
        (" \x7b\n    pub const EVENT_NAME: &'static str = ".toList ++
        ('"' :: (event.name.toList ++ '"' :: (";\n    pub const SELECTOR: &'static str = ".toList ++
        ('"' :: (event.selector.display.toList ++ '"' :: ";\n\x7d\n".toList))))))))))))))) := by
  have hdoc : "/// Event args for `".toList =
      "/// ".toList ++ ("Event args for ".toList ++ ['\x60']) := rfl
  have hend : "`.\n".toList = ['\x60', '.', '\n'] := rfl
  have hsignature : "/// Signature: `".toList =
      "/// ".toList ++ ("Signature: ".toList ++ ['\x60']) := rfl
  have htick : "`\n".toList = ['\x60', '\n'] := rfl
  have hstruct : "#[derive(Debug, Clone)]\npub struct ".toList =
      "#[derive(Debug, Clone)]\n".toList ++ "pub struct ".toList := rfl
  have hclose : "\x7d\n\n".toList = ['\x7d', '\n', '\n'] := rfl
  have himpl : "\n\nimpl ".toList = '\n' :: '\n' :: "impl ".toList := rfl
  have hopen : " \x7b\n    pub const EVENT_NAME: &'static str = ".toList =
      " \x7b\n".toList ++ "    pub const EVENT_NAME: &'static str = ".toList := rfl
  have hname : "    pub const EVENT_NAME: &'static str = \"".toList =
      "    pub const EVENT_NAME: &'static str = ".toList ++ ['"'] := rfl
  have hselector : "    pub const SELECTOR: &'static str = \"".toList =
      "    pub const SELECTOR: &'static str = ".toList ++ ['"'] := rfl
  have hnext : ";\n    pub const SELECTOR: &'static str = ".toList =
      ";\n".toList ++ "    pub const SELECTOR: &'static str = ".toList := rfl
  have hquote : "\";\n".toList = '"' :: ";\n".toList := rfl
  have hlast : ";\n\x7d\n".toList = ";\n".toList ++ "\x7d\n".toList := rfl
  have hdot : ".".toList = ['.'] := rfl
  unfold generateEventStruct
  dsimp only
  simp only [String.toList_append, foldl_fieldLine, List.append_assoc, List.cons_append,
    List.nil_append, hdoc, hend, hsignature, htick, hstruct, hclose, himpl, hopen, hname, hselector,
    hnext, hquote, hlast, hdot]

theorem newline_not_mem_toDigits (n : ℕ) : '\n' ∉ Nat.toDigits 10 n := by
  intro hmem
  have hdigit := Nat.isDigit_of_mem_toDigits (by omega) (by omega) hmem
  exact absurd hdigit (by decide)

theorem newline_not_mem_intercalate {ss : List String} (h : ∀ s ∈ ss, '\n' ∉ s.toList) :
    '\n' ∉ [','].intercalate (ss.map String.toList) := by
  induction ss with
  | nil => simp
  | cons s ss ih =>
    have hs := h s List.mem_cons_self
    have htail := ih fun t ht => h t (List.mem_cons_of_mem s ht)
    cases ss with
    | nil => simpa using hs
    | cons t ss =>
      rw [List.map_cons, List.map_cons, List.intercalate_cons_cons, ← List.map_cons,
        List.mem_append, List.mem_append]
      have hcomma : '\n' ∉ [','] := by decide
      tauto

mutual

theorem newline_not_mem_toSolString (t : AbiType) : '\n' ∉ t.toSolString.toList := by
  match t with
  | .uint bits => simp [AbiType.toSolString, newline_not_mem_toDigits]
  | .int bits => simp [AbiType.toSolString, newline_not_mem_toDigits]
  | .fixedBytes n => simp [AbiType.toSolString, newline_not_mem_toDigits]
  | .address => decide
  | .bool => decide
  | .bytes => decide
  | .string => decide
  | .array inner =>
    have hinner := newline_not_mem_toSolString inner
    simp [AbiType.toSolString, hinner]
  | .fixedArray inner n =>
    have hinner := newline_not_mem_toSolString inner
    simp [AbiType.toSolString, hinner, newline_not_mem_toDigits]
  | .tuple params =>
    have hparams := newline_not_mem_intercalate (newline_not_mem_toSolStrings params)
    simp [AbiType.toSolString, hparams]

theorem newline_not_mem_toSolStrings (ps : List AbiParam) :
    ∀ s ∈ AbiType.toSolStrings ps, '\n' ∉ s.toList := by
  match ps with
  | [] => simp [AbiType.toSolStrings]
  | .mk name t indexed :: ps =>
    have ht := newline_not_mem_toSolString t
    have hps := newline_not_mem_toSolStrings ps
    rw [AbiType.toSolStrings]
    exact List.forall_mem_cons.mpr ⟨ht, hps⟩

end

theorem newline_not_mem_signature {name : String} (hname : IsWord name.toList)
    (inputs : List AbiParam) : '\n' ∉ (AbiEvent.signatureString name inputs).toList := by
  have hword : '\n' ∉ name.toList := hname.not_mem (by decide)
  have hinputs := newline_not_mem_intercalate (newline_not_mem_toSolStrings inputs)
  simp [AbiEvent.signatureString, hword, hinputs]

theorem isWord_structName {name : List Char} (h : IsWord name) : IsWord (name ++ "Args".toList) := by
  obtain ⟨⟨c, hc, hstart⟩, hall⟩ := h
  obtain ⟨v, rfl⟩ : ∃ v, name = c :: v := List.head?_eq_some_iff.mp hc
  have hargs : "Args".toList.all identCont = true := by decide
  refine ⟨⟨c, rfl, hstart⟩, fun d hd => ?_⟩
  rcases List.mem_append.mp hd with hd | hd
  · exact hall d hd
  · exact List.all_eq_true.mp hargs d hd

theorem structName_not_mem_keywords (name : List Char) : name ++ "Args".toList ∉ keywords := by
  have hends : ∀ w ∈ keywords, ¬"Args".toList <:+ w := by decide
  exact fun h => hends _ h (List.suffix_append name _)

theorem quote_ne_digit {n : ℕ} (hn : n < 16) : '"' ≠ Hex.digit n := by
  intro heq
  have hvalue := Hex.value_digit hn
  have hquote : Hex.value '"' = none := by decide
  rw [← heq, hquote] at hvalue
  cases hvalue

theorem quote_not_mem_display (x : Hash32) : '"' ∉ x.display.toList := by
  unfold Hash32.display
  rw [String.toList_ofList]
  intro hmem
  rcases List.mem_cons.mp hmem with hzero | hmem
  · exact absurd hzero (by decide)
  rcases List.mem_cons.mp hmem with hx | hmem
  · exact absurd hx (by decide)
  obtain ⟨b, -, hdigit⟩ := List.mem_flatMap.mp hmem
  have hb := b.toNat_lt
  rcases List.mem_cons.mp hdigit with hhigh | hlow
  · exact quote_ne_digit (by omega) hhigh
  · exact quote_ne_digit (by omega) (List.mem_singleton.mp hlow)

theorem length_le_lines (inputs : List AbiParam) :
    inputs.length ≤ (inputs.flatMap fun p => (fieldLine p).toList).length := by
  induction inputs with
  | nil => simp
  | cons p inputs ih =>
    have hline : 1 ≤ (fieldLine p).toList.length := by
      rw [fieldLine_toList, List.length_append]
      have hpub : "    pub ".toList.length = 8 := by decide
      omega
    rw [List.length_cons, List.flatMap_cons, List.length_append]
    omega

/-- The generated text is a `struct` with a field for each input and the constants of the event,
unless two inputs share a name or one is named by a keyword that is not escaped. -/
theorem generated_reads {contractName : String} {event : AbiEvent}
    (hcontract : '\n' ∉ contractName.toList)
    (hsignature : event.signature = AbiEvent.signatureString event.name event.inputs)
    (hname : IsWord event.name.toList) (hinputs : ∀ p ∈ event.inputs, NamedWell p) :
    readEventStruct (generateEventStruct contractName event).toList =
      if Usable event then some (eventStruct event) else none := by
  have hnewline : '\n' ∉ event.name.toList := hname.not_mem (by decide)
  have hquote : '"' ∉ event.name.toList := hname.not_mem (by decide)
  have hsignature' : '\n' ∉ event.signature.toList := by
    rw [hsignature]
    exact newline_not_mem_signature hname event.inputs
  have hfirst : '\n' ∉ "Event args for ".toList ++ '\x60' :: (contractName.toList ++ '.' ::
      (event.name.toList ++ ['\x60', '.'])) := by
    simp [hcontract, hnewline]
  have hsecond : '\n' ∉ "Signature: ".toList ++ '\x60' :: (event.signature.toList ++ ['\x60']) := by
    simp [hsignature']
  rw [toList_generateEventStruct]
  unfold readEventStruct
  simp only [Option.bind_eq_bind]
  have hspace : ∀ r : List Char, ∀ c ∈ (" \x7b\n".toList ++ r).head?,
      identCont c = false ∧ c ≠ '#' := by
    intro r
    exact forall_head_cons (by decide : identCont ' ' = false ∧ ' ' ≠ '#') ('\x7b' :: '\n' :: r)
  have hfuel : ∀ r : List Char, event.inputs.length <
      ((event.inputs.flatMap fun p => (fieldLine p).toList) ++ '\x7d' :: r).length := by
    intro r
    have hlines := length_le_lines event.inputs
    rw [List.length_append, List.length_cons]
    omega
  have hclose : ∀ r : List Char,
      expect "\x7d\n\nimpl ".toList ('\x7d' :: ("\n\nimpl ".toList ++ r)) = some r :=
    fun r => expect_append "\x7d\n\nimpl ".toList r
  have hlast : expect ";\n\x7d\n".toList ";\n\x7d\n".toList = some [] := by decide
  have hnames : (event.inputs.map fun p => (fieldName p, rustType p.abiType)).map Prod.fst =
      event.inputs.map fieldName := by
    rw [List.map_map]
    rfl
  -- up to the fields, which may be refused
  rw [readDoc_line hfirst, Option.bind_some, readDoc_line hsecond, Option.bind_some, expect_append,
    Option.bind_some, readIdent_word (isWord_structName hname) (hspace _),
    if_neg (structName_not_mem_keywords _), Option.bind_some, expect_append, Option.bind_some,
    readFields_inputs hinputs (hfuel _)]
  by_cases hall : ∀ p ∈ event.inputs, fieldName p ∉ unusable
  · rw [if_pos hall, Option.bind_some, hclose, Option.bind_some, expect_append, Option.bind_some,
      expect_append, Option.bind_some, readString_quoted hquote, Option.bind_some, expect_append,
      Option.bind_some, readString_quoted (quote_not_mem_display _), Option.bind_some, hlast,
      Option.bind_some, hnames]
    -- everything is read, and the names are compared
    by_cases hnodup : (event.inputs.map fieldName).Nodup
    · rw [if_pos ⟨rfl, hnodup⟩, if_pos ⟨hnodup, hall⟩]
      rfl
    · rw [if_neg fun h => hnodup h.2, if_neg fun h => hnodup h.1]
  · rw [if_neg hall, if_neg fun h => hall h.2]
    rfl

/-- `Transfer` of a token with a field `from`, and the same event with a parameter `const`. -/
def transferOf (value : String) : AbiEvent where
  name := "Transfer"
  signature := AbiEvent.signatureString "Transfer"
    [.mk "from" .address true, .mk value (.uint 256) false]
  selector := Hash32.zero
  inputs := [.mk "from" .address true, .mk value (.uint 256) false]

theorem generated_reads_transfer :
    readEventStruct (generateEventStruct "ERC20" (transferOf "value")).toList =
      some (eventStruct (transferOf "value")) ∧
    readEventStruct (generateEventStruct "ERC20" (transferOf "const")).toList = none := by
  have hread : ∀ value : String, NamedWell (.mk value (.uint 256) false) →
      readEventStruct (generateEventStruct "ERC20" (transferOf value)).toList =
        if Usable (transferOf value) then some (eventStruct (transferOf value)) else none := by
    intro value hvalue
    have hname : IsWord "Transfer".toList := isWord_of_all (by decide)
    apply generated_reads (by decide) rfl hname
    intro p hp
    rcases List.mem_cons.mp hp with rfl | hp
    · exact .inr (isWord_of_all (by decide))
    · rw [List.mem_singleton.mp hp]
      exact hvalue
  rw [hread "value" (.inr (isWord_of_all (by decide))),
    hread "const" (.inr (isWord_of_all (by decide))), if_pos (by decide), if_neg (by decide)]
  exact ⟨rfl, rfl⟩

end ForgeIndex.Cli
