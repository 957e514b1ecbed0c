import ForgeIndex.Config.Json
import ForgeIndex.Lib.Delimited
import ForgeIndex.Lib.Utf8

/-!
# The build id

`forge-index-telemetry/src/build_id.rs`: a hash of the configuration, the tables and the handler
keys.  The hash is a parameter.
-/

namespace ForgeIndex

open Json Delimited

mutual

def canonicalJson : Json → List Char
  | .object members =>
    let entries := (canonicalMembers members).mergeSort fun a b => decide (a.1 ≤ b.1)
    -- the key is written as it is
    let parts := entries.map fun e => '"' :: (e.1.toList ++ '"' :: ':' :: e.2)
    '{' :: (List.intercalate [','] parts ++ ['}'])
  | .array items => '[' :: (List.intercalate [','] (canonicalItems items) ++ [']'])
  | other => other.toText

def canonicalItems : List Json → List (List Char)
  | [] => []
  | v :: vs => canonicalJson v :: canonicalItems vs

def canonicalMembers : List Member → List (String × List Char)
  | [] => []
  | .mk key value :: ms => (key, canonicalJson value) :: canonicalMembers ms

end

structure BuildInput where
  config : Config
  schema : Schema
  handlerKeys : List String

/-- `keys.sort()`. -/
def sortKeys (keys : List String) : List String := keys.mergeSort fun a b => decide (a ≤ b)

/-- The sorted keys one after the other. -/
def joinKeys (keys : List String) : List Char := (sortKeys keys).flatMap String.toList

namespace BuildInput

variable (keccak256 : Bytes → Hash32)

/-- What `compute_build_id` feeds to the hash. -/
def bytes (input : BuildInput) : Bytes :=
  Utf8.encode (canonicalJson (input.config.toJson keccak256)) ++
    Utf8.encode (canonicalJson (input.schema.toJson Json.ofFields)) ++
    (sortKeys input.handlerKeys).flatMap fun key => Utf8.encode key.toList

def computeBuildId (sha256 : Bytes → Bytes) (input : BuildInput) : String :=
  String.ofList (Hex.encode (sha256 (input.bytes keccak256)))

end BuildInput

theorem canonicalItems_eq (vs : List Json) : canonicalItems vs = vs.map canonicalJson := by
  induction vs with
  | nil => rfl
  | cons v vs ih => rw [canonicalItems, ih, List.map_cons]

/-- A member of an object. -/
def memberText : Member → List Char
  | .mk key value => '"' :: (key.toList ++ '"' :: ':' :: canonicalJson value)

theorem canonicalMembers_pairwise {ms : List Member} (h : WellFormedMembers ms) :
    (canonicalMembers ms).Pairwise fun a b => decide (a.1 ≤ b.1) = true := by
  have hmem : ∀ (ms : List Member) (e : String × List Char), e ∈ canonicalMembers ms →
      ∃ value, Member.mk e.1 value ∈ ms := by
    intro ms
    induction ms with
    | nil => exact fun e he => absurd he List.not_mem_nil
    | cons m ms ih =>
      intro e he
      obtain ⟨key, value⟩ := m
      rw [canonicalMembers] at he
      rcases List.mem_cons.mp he with rfl | he
      · exact ⟨value, List.mem_cons_self⟩
      · obtain ⟨value', hm⟩ := ih e he
        exact ⟨value', List.mem_cons_of_mem _ hm⟩
  induction ms with
  | nil => exact List.Pairwise.nil
  | cons m ms ih =>
    obtain ⟨key, value⟩ := m
    rw [canonicalMembers]
    apply List.Pairwise.cons
    · intro e he
      obtain ⟨value', hm⟩ := hmem ms e he
      exact decide_eq_true (h.1 e.1 value' hm).le
    · exact ih h.2.2

theorem canonicalJson_object {ms : List Member} (h : WellFormedMembers ms) :
    canonicalJson (.object ms) =
      '{' :: (List.intercalate [','] (ms.map memberText) ++ ['}']) := by
  have hparts : (canonicalMembers ms).map (fun e => '"' :: (e.1.toList ++ '"' :: ':' :: e.2)) =
      ms.map memberText := by
    clear h
    induction ms with
    | nil => rfl
    | cons m ms ih =>
      obtain ⟨key, value⟩ := m
      rw [canonicalMembers, List.map_cons, ih]
      rfl
  rw [canonicalJson, List.mergeSort_of_pairwise (canonicalMembers_pairwise h), hparts]

theorem canonicalJson_array (vs : List Json) :
    canonicalJson (.array vs) =
      '[' :: (List.intercalate [','] (vs.map canonicalJson) ++ [']']) := by
  rw [canonicalJson, canonicalItems_eq]

/-- Reads what follows a backslash. -/
def readEscape : List Char → Option (Char × List Char)
  | 'u' :: _ :: _ :: h :: l :: r =>
    some (Char.ofNat (((Hex.value h).getD 0) * 16 + (Hex.value l).getD 0), r)
  | 'b' :: r => some (Char.ofNat 8, r)
  | 'f' :: r => some (Char.ofNat 12, r)
  | 'n' :: r => some ('\n', r)
  | 'r' :: r => some ('\r', r)
  | 't' :: r => some ('\t', r)
  | c :: r => some (c, r)
  | [] => none

/-- Reads an escaped character. -/
def readChar : List Char → Option (Char × List Char)
  | c :: r => if c = '\\' then readEscape r else some (c, r)
  | [] => none

theorem readChar_escapeChar (c : Char) (r : List Char) :
    readChar (escapeChar c ++ r) = some (c, r) := by
  unfold escapeChar
  split_ifs with hquote hback h8 h12 hn hr ht hcontrol
  · rw [hquote]
    rfl
  · rw [hback]
    rfl
  · have hc : c = Char.ofNat 8 := by rw [← h8, Char.ofNat_toNat]
    rw [hc]
    rfl
  · have hc : c = Char.ofNat 12 := by rw [← h12, Char.ofNat_toNat]
    rw [hc]
    rfl
  · rw [hn]
    rfl
  · rw [hr]
    rfl
  · rw [ht]
    rfl
  -- two digits for the number of a control character
  · show some (Char.ofNat (((Hex.value (Hex.digit (c.toNat / 16))).getD 0) * 16 +
      (Hex.value (Hex.digit (c.toNat % 16))).getD 0), r) = some (c, r)
    rw [Hex.value_digit (by omega), Hex.value_digit (by omega)]
    have hvalue : (some (c.toNat / 16)).getD 0 * 16 + (some (c.toNat % 16)).getD 0 = c.toNat := by
      show c.toNat / 16 * 16 + c.toNat % 16 = c.toNat
      omega
    rw [hvalue, Char.ofNat_toNat]
  · exact if_neg hback

theorem head?_escapeChar (c : Char) (t : List Char) :
    (escapeChar c ++ t).head? ≠ some '"' := by
  unfold escapeChar
  split_ifs with hquote <;> simp [*]

theorem quote_inj {s s' : String} {r r' : List Char} (h : quote s ++ r = quote s' ++ r') :
    s = s' ∧ r = r' := by
  unfold quote at h
  rw [List.cons_append, List.cons_append, List.append_assoc, List.append_assoc] at h
  have hinj := flatMap_inj (fun _ => True) (fun c t _ => head?_escapeChar c t)
    (fun c _ => ⟨trivial, ReadsBack.of_read readChar readChar_escapeChar c⟩)
    (fun _ _ => trivial) (List.cons.inj h).2
  exact ⟨String.toList_inj.mp hinj.1, hinj.2⟩

theorem key_inj {k k' : String} {r r' : List Char} (hk : '"' ∉ k.toList) (hk' : '"' ∉ k'.toList)
    (h : k.toList ++ '"' :: r = k'.toList ++ '"' :: r') : k = k' ∧ r = r' := by
  -- the first quote is the end of the key
  have hletter {x : String} (hx : '"' ∉ x.toList) : ∀ c ∈ x.toList, decide (c ≠ '"') = true := by
    intro c hc
    apply decide_eq_true
    intro he
    exact hx (he ▸ hc)
  have hend (t : List Char) : ∀ c ∈ ('"' :: t).head?, decide (c ≠ '"') = false := by
    intro c hc
    rw [List.head?_cons, Option.mem_some_iff] at hc
    rw [← hc]
    rfl
  have hinj := word_inj (hletter hk) (hletter hk') (hend r) (hend r') h
  exact ⟨String.toList_inj.mp hinj.1, (List.cons.inj hinj.2).2⟩

/-- A number ends here. -/
def Ends (t : List Char) : Prop := ∀ c ∈ t.head?, isNumeral c = false

theorem ends_cons {c : Char} (h : isNumeral c = false) (t : List Char) : Ends (c :: t) := by
  intro d hd
  rw [List.head?_cons, Option.mem_some_iff] at hd
  rw [← hd]
  exact h

/-- One character for each kind of value. -/
def kindOf : Json → Char
  | .null => 'n'
  | .bool true => 't'
  | .bool false => 'f'
  | .number _ => '0'
  | .string _ => '"'
  | .array _ => '['
  | .object _ => '{'

/-- The kind that a text begins with. -/
def kindOfText (t : List Char) : Char :=
  match t with
  | [] => ' '
  | c :: _ => if isNumeral c then '0' else c

theorem kindOfText_canonicalJson {v : Json} (h : v.WellFormed) (t : List Char) :
    kindOfText (canonicalJson v ++ t) = kindOf v := by
  cases v with
  | null => rfl
  | bool b => cases b <;> rfl
  | string s => rfl
  | array items =>
    rw [canonicalJson_array]
    rfl
  | object members =>
    rw [canonicalJson_object h]
    rfl
  | number text =>
    show kindOfText (text.toList ++ t) = '0'
    cases hlist : text.toList with
    | nil => exact absurd (String.toList_inj.mp hlist) h.1
    | cons c cs =>
      have hc : isNumeral c = true := h.2 c (by rw [hlist]; exact List.mem_cons_self)
      show (if isNumeral c then '0' else c) = '0'
      rw [if_pos hc]

theorem kindOf_eq {v v' : Json} (h : v.WellFormed) (h' : v'.WellFormed) {r r' : List Char}
    (htext : canonicalJson v ++ r = canonicalJson v' ++ r') : kindOf v = kindOf v' := by
  rw [← kindOfText_canonicalJson h r, htext, kindOfText_canonicalJson h' r']

theorem head?_canonicalJson {v : Json} (h : v.WellFormed) (t : List Char) {c : Char}
    (hnumeral : isNumeral c = false) (hc : kindOf v ≠ c) :
    (canonicalJson v ++ t).head? ≠ some c := by
  intro hhead
  have hkind := kindOfText_canonicalJson h t
  cases htext : canonicalJson v ++ t with
  | nil =>
    rw [htext] at hhead
    cases hhead
  | cons d ds =>
    rw [htext, List.head?_cons] at hhead
    rw [htext, Option.some.inj hhead] at hkind
    apply hc
    rw [← hkind]
    show (if isNumeral c then '0' else c) = c
    rw [if_neg (by rw [hnumeral]; exact Bool.false_ne_true)]

/-- A member of a plain object. -/
def PlainMember : Member → Prop
  | .mk key value => '"' ∉ key.toList ∧ value.Plain

theorem Json.Plain.items {vs : List Json} (h : (Json.array vs).Plain) : ∀ v ∈ vs, v.Plain := by
  obtain ⟨hwell, hquote⟩ := h
  change WellFormedItems vs at hwell
  change QuotelessItems vs at hquote
  induction vs with
  | nil => exact fun v hv => absurd hv List.not_mem_nil
  | cons v vs ih =>
    intro u hu
    rcases List.mem_cons.mp hu with rfl | hu
    · exact ⟨hwell.1, hquote.1⟩
    · exact ih hwell.2 hquote.2 u hu

theorem Json.Plain.members {ms : List Member} (h : (Json.object ms).Plain) :
    ∀ m ∈ ms, PlainMember m := by
  obtain ⟨hwell, hquote⟩ := h
  change WellFormedMembers ms at hwell
  change QuotelessMembers ms at hquote
  induction ms with
  | nil => exact fun m hm => absurd hm List.not_mem_nil
  | cons m ms ih =>
    obtain ⟨key, value⟩ := m
    intro n hn
    rcases List.mem_cons.mp hn with rfl | hn
    · exact ⟨hquote.1, hwell.2.1, hquote.2.1⟩
    · exact ih hwell.2.2 hquote.2.2 n hn

theorem memberText_append (key : String) (value : Json) (r : List Char) :
    memberText (.mk key value) ++ r =
      '"' :: (key.toList ++ '"' :: (':' :: (canonicalJson value ++ r))) := by
  unfold memberText
  rw [List.cons_append, List.append_assoc, List.cons_append, List.cons_append]

theorem memberText_readsBack {key : String} {value : Json} (hkey : '"' ∉ key.toList)
    (hvalue : ReadsBack Plain Ends canonicalJson value) :
    ReadsBack PlainMember Ends memberText (.mk key value) := by
  intro m r s hm hr hs h
  obtain ⟨key', value'⟩ := m
  rw [memberText_append, memberText_append] at h
  obtain ⟨hk, hrest⟩ := key_inj hkey hm.1 (List.cons.inj h).2
  obtain ⟨hv, hrs⟩ := hvalue value' r s hm.2 hr hs (List.cons.inj hrest).2
  exact ⟨by rw [hk, hv], hrs⟩

theorem array_readsBack {vs : List Json} (h : (Json.array vs).Plain)
    (hitems : ∀ v ∈ vs, ReadsBack Plain Ends canonicalJson v) :
    ReadsBack Plain (fun _ => True) canonicalJson (.array vs) := by
  intro w r s hw _ _ htext
  have hkind := kindOf_eq h.wellFormed hw.wellFormed htext
  cases w with
  | array ws =>
    rw [canonicalJson_array, canonicalJson_array, List.cons_append, List.cons_append,
      List.append_assoc, List.append_assoc] at htext
    have hopen (v : Json) (t : List Char) (hv : v.Plain) :
        (canonicalJson v ++ t).head? ≠ some ']' := by
      apply head?_canonicalJson hv.wellFormed t (by decide)
      cases v with
      | bool b => cases b <;> simp [kindOf]
      | _ => simp [kindOf]
    have hinj := intercalate_inj (by decide) (ends_cons (by decide)) (ends_cons (by decide)) hopen
      (fun v hv => ⟨h.items v hv, hitems v hv⟩) hw.items (List.cons.inj htext).2
    exact ⟨by rw [hinj.1], hinj.2⟩
  | bool b => cases b <;> cases hkind
  | _ => cases hkind

theorem object_readsBack {ms : List Member} (h : (Json.object ms).Plain)
    (hmembers : ∀ m ∈ ms, ReadsBack PlainMember Ends memberText m) :
    ReadsBack Plain (fun _ => True) canonicalJson (.object ms) := by
  intro w r s hw _ _ htext
  have hkind := kindOf_eq h.wellFormed hw.wellFormed htext
  cases w with
  | object ns =>
    rw [canonicalJson_object h.wellFormed, canonicalJson_object hw.wellFormed, List.cons_append,
      List.cons_append, List.append_assoc, List.append_assoc] at htext
    have hopen (m : Member) (t : List Char) (_ : PlainMember m) :
        (memberText m ++ t).head? ≠ some '}' := by
      obtain ⟨key, value⟩ := m
      rw [memberText_append]
      simp
    have hinj := intercalate_inj (by decide) (ends_cons (by decide)) (ends_cons (by decide)) hopen
      (fun m hm => ⟨h.members m hm, hmembers m hm⟩) hw.members (List.cons.inj htext).2
    exact ⟨by rw [hinj.1], hinj.2⟩
  | bool b => cases b <;> cases hkind
  | _ => cases hkind

theorem scalar_readsBack {v : Json} (hv : v.WellFormed) (hscalar : ∀ vs, v ≠ .array vs)
    (hscalar' : ∀ ms, v ≠ .object ms) : ReadsBack Plain Ends canonicalJson v := by
  intro w r s hw hr hs htext
  have hkind := kindOf_eq hv hw.wellFormed htext
  cases v with
  | array vs => exact absurd rfl (hscalar vs)
  | object ms => exact absurd rfl (hscalar' ms)
  | null =>
    cases w with
    | null => exact ⟨rfl, List.append_cancel_left htext⟩
    | bool b => cases b <;> cases hkind
    | _ => cases hkind
  | bool b =>
    cases w with
    | bool b' =>
      have hb : b = b' := by
        cases b <;> cases b' <;> first | rfl | cases hkind
      subst hb
      exact ⟨rfl, List.append_cancel_left htext⟩
    | _ => cases b <;> cases hkind
  | number text =>
    cases w with
    | number text' =>
      -- only here what stands behind the value matters
      have hinj := word_inj hv.2 hw.wellFormed.2 hr hs htext
      exact ⟨by rw [String.toList_inj.mp hinj.1], hinj.2⟩
    | bool b => cases b <;> cases hkind
    | _ => cases hkind
  | string t =>
    cases w with
    | string t' =>
      have hinj := quote_inj htext
      exact ⟨by rw [hinj.1], hinj.2⟩
    | bool b => cases b <;> cases hkind
    | _ => cases hkind

mutual

theorem canonicalJson_readsBack : (v : Json) → v.Plain → ReadsBack Plain Ends canonicalJson v
  | .array vs, h => fun w r s hw _ _ htext =>
    array_readsBack h (canonicalItems_readsBack vs h.items) w r s hw trivial trivial htext
  | .object ms, h => fun w r s hw _ _ htext =>
    object_readsBack h (canonicalMembers_readsBack ms h.members) w r s hw trivial trivial htext
  | .null, h => scalar_readsBack h.wellFormed (fun _ he => by cases he) (fun _ he => by cases he)
  | .bool _, h => scalar_readsBack h.wellFormed (fun _ he => by cases he) (fun _ he => by cases he)
  | .number _, h =>
    scalar_readsBack h.wellFormed (fun _ he => by cases he) (fun _ he => by cases he)
  | .string _, h =>
    scalar_readsBack h.wellFormed (fun _ he => by cases he) (fun _ he => by cases he)

theorem canonicalItems_readsBack : (vs : List Json) → (∀ v ∈ vs, v.Plain) →
    ∀ v ∈ vs, ReadsBack Plain Ends canonicalJson v
  | [], _ => fun _ hv => absurd hv List.not_mem_nil
  | v :: vs, h => List.forall_mem_cons.mpr
    ⟨canonicalJson_readsBack v (h v List.mem_cons_self),
      canonicalItems_readsBack vs fun u hu => h u (List.mem_cons_of_mem v hu)⟩

theorem canonicalMembers_readsBack : (ms : List Member) → (∀ m ∈ ms, PlainMember m) →
    ∀ m ∈ ms, ReadsBack PlainMember Ends memberText m
  | [], _ => fun _ hm => absurd hm List.not_mem_nil
  | .mk key value :: ms, h => List.forall_mem_cons.mpr
    ⟨memberText_readsBack (h (.mk key value) List.mem_cons_self).1
        (canonicalJson_readsBack value (h (.mk key value) List.mem_cons_self).2),
      canonicalMembers_readsBack ms fun n hn => h n (List.mem_cons_of_mem _ hn)⟩

end

theorem canonicalJson_object_inj {ms ns : List Member} (h : (Json.object ms).Plain)
    (h' : (Json.object ns).Plain) {r s : List Char}
    (htext : canonicalJson (.object ms) ++ r = canonicalJson (.object ns) ++ s) :
    Json.object ms = Json.object ns ∧ r = s :=
  object_readsBack h (canonicalMembers_readsBack ms h.members) (.object ns) r s h' trivial trivial
    htext

-- A quote in a key can make one member look like two.
example : canonicalJson (.object [.mk "a\":1,\"b" (.number "2")]) =
    canonicalJson (.object [.mk "a" (.number "1"), .mk "b" (.number "2")]) := by
  have hwell : WellFormedMembers [.mk "a" (.number "1"), .mk "b" (.number "2")] := by
    refine ⟨?_, (plain_ofNat 1).wellFormed, fun _ _ h => absurd h List.not_mem_nil,
      (plain_ofNat 2).wellFormed, trivial⟩
    intro key value hm
    cases List.mem_singleton.mp hm
    decide
  have hwell' : WellFormedMembers [.mk "a\":1,\"b" (.number "2")] :=
    ⟨fun _ _ h => absurd h List.not_mem_nil, (plain_ofNat 2).wellFormed, trivial⟩
  rw [canonicalJson_object hwell, canonicalJson_object hwell']
  rfl

end ForgeIndex
