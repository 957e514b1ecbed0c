import ForgeIndex.Abi.Solidity

/-!
# Event signatures

The signature of an event determines its name and the types of its inputs.
-/

namespace ForgeIndex

open Delimited

mutual

/-- The type with empty names and no flags in its tuples. -/
def AbiType.erase : AbiType → AbiType
  | .array inner => .array inner.erase
  | .fixedArray inner len => .fixedArray inner.erase len
  | .tuple params => .tuple (AbiType.eraseAll params)
  | .uint bits => .uint bits
  | .int bits => .int bits
  | .address => .address
  | .bool => .bool
  | .fixedBytes n => .fixedBytes n
  | .bytes => .bytes
  | .string => .string

def AbiType.eraseAll : List AbiParam → List AbiParam
  | [] => []
  | .mk _ t _ :: ps => .mk "" t.erase false :: AbiType.eraseAll ps

end

mutual

theorem AbiType.toSolString_erase : ∀ t : AbiType, t.erase.toSolString = t.toSolString
  | .array inner => by rw [erase, toSolString, toSolString, toSolString_erase inner]
  | .fixedArray inner _ => by rw [erase, toSolString, toSolString, toSolString_erase inner]
  | .tuple params => by rw [erase, toSolString, toSolString, toSolStrings_eraseAll params]
  | .uint _ => rfl
  | .int _ => rfl
  | .address => rfl
  | .bool => rfl
  | .fixedBytes _ => rfl
  | .bytes => rfl
  | .string => rfl

theorem AbiType.toSolStrings_eraseAll :
    ∀ ps : List AbiParam, toSolStrings (eraseAll ps) = toSolStrings ps
  | [] => rfl
  | .mk _ t _ :: ps => by
    rw [eraseAll, toSolStrings, toSolStrings, toSolString_erase t, toSolStrings_eraseAll ps]

end

mutual

theorem AbiType.erase_erase : ∀ t : AbiType, t.erase.erase = t.erase
  | .array inner => by rw [erase, erase, erase_erase inner]
  | .fixedArray inner _ => by rw [erase, erase, erase_erase inner]
  | .tuple params => by rw [erase, erase, eraseAll_eraseAll params]
  | .uint _ => rfl
  | .int _ => rfl
  | .address => rfl
  | .bool => rfl
  | .fixedBytes _ => rfl
  | .bytes => rfl
  | .string => rfl

theorem AbiType.eraseAll_eraseAll : ∀ ps : List AbiParam, eraseAll (eraseAll ps) = eraseAll ps
  | [] => rfl
  | .mk _ t _ :: ps => by rw [eraseAll, eraseAll, erase_erase t, eraseAll_eraseAll ps]

end

/-- No names and flags are in the type. -/
def Erased (t : AbiType) : Prop := t.erase = t

theorem erased_array {inner : AbiType} : Erased (.array inner) ↔ Erased inner := by
  rw [Erased, AbiType.erase, AbiType.array.injEq, Erased]

theorem erased_fixedArray {inner : AbiType} {len : ℕ} :
    Erased (.fixedArray inner len) ↔ Erased inner := by
  rw [Erased, AbiType.erase, AbiType.fixedArray.injEq, Erased]
  exact and_iff_left rfl

theorem erased_tuple {params : List AbiParam} :
    Erased (.tuple params) ↔ AbiType.eraseAll params = params := by
  rw [Erased, AbiType.erase, AbiType.tuple.injEq]

theorem eraseAll_cons {p : AbiParam} {ps : List AbiParam}
    (h : AbiType.eraseAll (p :: ps) = p :: ps) :
    p = .mk "" p.abiType false ∧ Erased p.abiType ∧ AbiType.eraseAll ps = ps := by
  obtain ⟨name, t, indexed⟩ := p
  rw [AbiType.eraseAll] at h
  obtain ⟨hp, hps⟩ := List.cons.inj h
  obtain ⟨rfl, ht, rfl⟩ := AbiParam.mk.inj hp
  exact ⟨rfl, ht, hps⟩

theorem eq_of_types {ps qs : List AbiParam} (hp : AbiType.eraseAll ps = ps)
    (hq : AbiType.eraseAll qs = qs) (h : ps.map AbiParam.abiType = qs.map AbiParam.abiType) :
    ps = qs := by
  induction ps generalizing qs with
  | nil =>
    cases qs with
    | nil => rfl
    | cons q qs => cases h
  | cons p ps ih =>
    cases qs with
    | nil => cases h
    | cons q qs =>
      obtain ⟨hpeq, -, hps⟩ := eraseAll_cons hp
      obtain ⟨hqeq, -, hqs⟩ := eraseAll_cons hq
      obtain ⟨ht, htail⟩ := List.cons.inj h
      rw [hpeq, hqeq, ih hps hqs htail, ht]

def AbiType.text (t : AbiType) : List Char := t.toSolString.toList

/-- The text of an array suffix. -/
def layerText : Option ℕ → List Char
  | none => ['[', ']']
  | some n => '[' :: ((toString n).toList ++ [']'])

theorem AbiType.text_layer (t : AbiType) (d : Option ℕ) :
    (t.layer d).text = t.text ++ layerText d := by
  cases d with
  | none =>
    show (t.toSolString ++ "[]").toList = _
    rw [String.toList_append]
    rfl
  | some n =>
    show (t.toSolString ++ "[" ++ toString n ++ "]").toList = _
    rw [String.toList_append, String.toList_append, String.toList_append, List.append_assoc,
      List.append_assoc]
    rfl

theorem toSolStrings_eq (ps : List AbiParam) :
    (AbiType.toSolStrings ps).map String.toList = (ps.map AbiParam.abiType).map AbiType.text := by
  induction ps with
  | nil => rfl
  | cons p ps ih =>
    obtain ⟨name, t, indexed⟩ := p
    rw [AbiType.toSolStrings, List.map_cons, ih]
    rfl

theorem AbiType.text_tuple (ps : List AbiParam) : (AbiType.tuple ps).text =
    '(' :: (List.intercalate [','] ((ps.map AbiParam.abiType).map text) ++ [')']) := by
  show ("(" ++ ",".intercalate (toSolStrings ps) ++ ")").toList = _
  rw [String.toList_append, String.toList_append, String.toList_intercalate, toSolStrings_eq]
  rfl

/-- The letters of an elementary type, and the digits behind them. -/
def AbiType.word : AbiType → List Char × List Char
  | .uint bits => ("uint".toList, (toString bits).toList)
  | .int bits => ("int".toList, (toString bits).toList)
  | .address => ("address".toList, [])
  | .bool => ("bool".toList, [])
  | .fixedBytes n => ("bytes".toList, (toString n).toList)
  | .bytes => ("bytes".toList, [])
  | .string => ("string".toList, [])
  | _ => ([], [])

theorem AbiType.text_word {t : AbiType} (h : t.isElementary = true) :
    t.text = t.word.1 ++ t.word.2 := by
  cases t with
  | uint bits => exact String.toList_append
  | int bits => exact String.toList_append
  | fixedBytes n => exact String.toList_append
  | address => rfl
  | bool => rfl
  | bytes => rfl
  | string => rfl
  | _ => cases h

theorem AbiType.letters_of_word {t : AbiType} (h : t.isElementary = true) :
    ∃ c cs, t.word.1 = c :: cs ∧ ∀ a ∈ c :: cs, a.isAlpha = true ∧ a.isDigit = false := by
  have hletters (cs : List Char) (hcs : (cs.all fun a => a.isAlpha && !a.isDigit) = true) :
      ∀ a ∈ cs, a.isAlpha = true ∧ a.isDigit = false := by
    intro a ha
    simpa using List.all_eq_true.mp hcs a ha
  cases t with
  | uint _ => exact ⟨_, _, rfl, hletters _ (by decide)⟩
  | int _ => exact ⟨_, _, rfl, hletters _ (by decide)⟩
  | address => exact ⟨_, _, rfl, hletters _ (by decide)⟩
  | bool => exact ⟨_, _, rfl, hletters _ (by decide)⟩
  | fixedBytes _ => exact ⟨_, _, rfl, hletters _ (by decide)⟩
  | bytes => exact ⟨_, _, rfl, hletters _ (by decide)⟩
  | string => exact ⟨_, _, rfl, hletters _ (by decide)⟩
  | _ => cases h

theorem AbiType.text_ne_tuple {t : AbiType} (h : t.isElementary = true) (ps : List AbiParam)
    (r s : List Char) : t.text ++ r ≠ (AbiType.tuple ps).text ++ s := by
  intro heq
  obtain ⟨c, cs, hname, hletters⟩ := letters_of_word h
  rw [text_word h, text_tuple, hname] at heq
  have hc : c = '(' := (List.cons.inj heq).1
  have hletter := (hletters c List.mem_cons_self).1
  rw [hc] at hletter
  exact absurd hletter (by decide)

theorem AbiType.digits_of_word (t : AbiType) : ∀ c ∈ t.word.2, c.isDigit = true := by
  cases t with
  | uint bits => exact (isDigits_toString bits).2
  | int bits => exact (isDigits_toString bits).2
  | fixedBytes n => exact (isDigits_toString n).2
  | _ => exact fun c hc => absurd hc List.not_mem_nil

theorem toString_chars_inj {m n : ℕ} (h : (toString m).toList = (toString n).toList) : m = n := by
  rw [← decimal_toString m, h, decimal_toString]

/-- The elementary type of such a word. -/
def AbiType.ofWord (name digits : List Char) : AbiType :=
  if digits = [] then
    if name = "address".toList then .address
    else if name = "bool".toList then .bool
    else if name = "bytes".toList then .bytes
    else .string
  else if name = "uint".toList then .uint (decimal digits)
  else if name = "int".toList then .int (decimal digits)
  else .fixedBytes (decimal digits)

theorem AbiType.ofWord_word {t : AbiType} (h : t.isElementary = true) :
    ofWord t.word.1 t.word.2 = t := by
  have hne (n : ℕ) : (toString n).toList ≠ [] := (isDigits_toString n).1
  cases t with
  | uint bits =>
    show ofWord "uint".toList (toString bits).toList = _
    rw [ofWord, if_neg (hne bits), if_pos rfl, decimal_toString]
  | int bits =>
    show ofWord "int".toList (toString bits).toList = _
    rw [ofWord, if_neg (hne bits), if_neg (by decide), if_pos rfl, decimal_toString]
  | fixedBytes n =>
    show ofWord "bytes".toList (toString n).toList = _
    rw [ofWord, if_neg (hne n), if_neg (by decide), if_neg (by decide), decimal_toString]
  | address => rfl
  | bool => rfl
  | bytes => rfl
  | string => rfl
  | _ => cases h

theorem AbiType.word_inj {t u : AbiType} (ht : t.isElementary = true) (hu : u.isElementary = true)
    (h : t.word = u.word) : t = u := by
  rw [← ofWord_word ht, h, ofWord_word hu]

/-- A text that goes on behind a type: another type, or the end of the list. -/
def EndsType (r : List Char) : Prop := ∀ c ∈ r.head?, c = ',' ∨ c = ')'

/-- Array suffixes, the innermost first. -/
def layersText (ds : List (Option ℕ)) : List Char := ds.flatMap layerText

theorem AbiType.text_wrap (t : AbiType) (ds : List (Option ℕ)) :
    (t.wrap ds).text = t.text ++ layersText ds := by
  induction ds generalizing t with
  | nil => exact (List.append_nil _).symm
  | cons d ds ih =>
    show ((t.layer d).wrap ds).text = t.text ++ (layerText d ++ layersText ds)
    rw [ih, text_layer, List.append_assoc]

theorem head_layersText {ds : List (Option ℕ)} {r : List Char} (hr : EndsType r) :
    ∀ c ∈ (layersText ds ++ r).head?, c.isAlpha = false ∧ c.isDigit = false := by
  intro c hc
  cases ds with
  | nil =>
    rcases hr c hc with rfl | rfl
    · decide
    · decide
  | cons d ds =>
    have hopen : c = '[' := by
      cases d <;> exact (Option.some.inj hc).symm
    subst hopen
    decide

/-- The digits between the brackets of a suffix. -/
def layerDigits : Option ℕ → List Char
  | none => []
  | some n => (toString n).toList

theorem layerText_append (d : Option ℕ) (r : List Char) :
    layerText d ++ r = '[' :: (layerDigits d ++ ']' :: r) := by
  cases d with
  | none => rfl
  | some n => simp [layerText, layerDigits]

theorem layerDigits_inj {d e : Option ℕ} (h : layerDigits d = layerDigits e) : d = e := by
  have hne (n : ℕ) : (toString n).toList ≠ [] := (isDigits_toString n).1
  cases d with
  | none =>
    cases e with
    | none => rfl
    | some n => exact absurd h.symm (hne n)
  | some m =>
    cases e with
    | none => exact absurd h (hne m)
    | some n => rw [toString_chars_inj h]

theorem layersText_inj {ds es : List (Option ℕ)} {r s : List Char} (hr : EndsType r) (hs : EndsType s)
    (h : layersText ds ++ r = layersText es ++ s) : ds = es ∧ r = s := by
  have hdigits (d : Option ℕ) : ∀ c ∈ layerDigits d, c.isDigit = true := by
    cases d with
    | none => exact fun c hc => absurd hc List.not_mem_nil
    | some n => exact (isDigits_toString n).2
  have hclose (t : List Char) : ∀ c ∈ (']' :: t).head?, c.isDigit = false := by
    intro c hc
    cases hc
    decide
  have hopen {t : List Char} (ht : EndsType t) (d : Option ℕ) (ds : List (Option ℕ)) (t' : List Char) :
      t ≠ layersText (d :: ds) ++ t' := by
    intro heq
    have hhead : t.head? = some '[' := by
      rw [heq, layersText, List.flatMap_cons, List.append_assoc, layerText_append]
      rfl
    rcases ht '[' hhead with habs | habs
    · exact absurd habs (by decide)
    · exact absurd habs (by decide)
  induction ds generalizing es with
  | nil =>
    cases es with
    | nil => exact ⟨rfl, h⟩
    | cons e es => exact absurd h (hopen hr e es s)
  | cons d ds ih =>
    cases es with
    | nil => exact absurd h.symm (hopen hs d ds r)
    | cons e es =>
      rw [layersText, layersText, List.flatMap_cons, List.flatMap_cons, List.append_assoc,
        List.append_assoc, layerText_append, layerText_append] at h
      obtain ⟨hword, hrest⟩ := Delimited.word_inj (hdigits d) (hdigits e) (hclose _) (hclose _)
        (List.cons.inj h).2
      obtain ⟨hds, hrs⟩ := ih (List.cons.inj hrest).2
      exact ⟨by rw [layerDigits_inj hword, hds], hrs⟩

theorem AbiType.exists_core : ∀ t : AbiType, Erased t → ∃ b ds, t = b.wrap ds ∧ Erased b ∧
    (b.isElementary = true ∨ ∃ ps, b = .tuple ps)
  | .array inner, h => by
    obtain ⟨b, ds, hinner, hb, hcore⟩ := exists_core inner (erased_array.mp h)
    refine ⟨b, ds ++ [none], ?_, hb, hcore⟩
    rw [wrap_concat, ← hinner]
    rfl
  | .fixedArray inner len, h => by
    obtain ⟨b, ds, hinner, hb, hcore⟩ := exists_core inner (erased_fixedArray.mp h)
    refine ⟨b, ds ++ [some len], ?_, hb, hcore⟩
    rw [wrap_concat, ← hinner]
    rfl
  | .tuple ps, h => ⟨_, [], rfl, h, Or.inr ⟨ps, rfl⟩⟩
  | .uint _, h => ⟨_, [], rfl, h, Or.inl rfl⟩
  | .int _, h => ⟨_, [], rfl, h, Or.inl rfl⟩
  | .address, h => ⟨_, [], rfl, h, Or.inl rfl⟩
  | .bool, h => ⟨_, [], rfl, h, Or.inl rfl⟩
  | .fixedBytes _, h => ⟨_, [], rfl, h, Or.inl rfl⟩
  | .bytes, h => ⟨_, [], rfl, h, Or.inl rfl⟩
  | .string, h => ⟨_, [], rfl, h, Or.inl rfl⟩

theorem AbiType.head_text {t : AbiType} (h : Erased t) (r : List Char) :
    ∃ c, (t.text ++ r).head? = some c ∧ (c.isAlpha = true ∨ c = '(') := by
  obtain ⟨b, ds, rfl, -, hcore⟩ := t.exists_core h
  rw [text_wrap]
  rcases hcore with hword | ⟨ps, rfl⟩
  · obtain ⟨c, cs, hname, hletters⟩ := letters_of_word hword
    rw [text_word hword, hname]
    exact ⟨c, rfl, Or.inl (hletters c List.mem_cons_self).1⟩
  · rw [text_tuple]
    exact ⟨'(', rfl, Or.inr rfl⟩

/-- With suffixes behind it, the text of `t` can be that of no other type. -/
def ReadsType (t : AbiType) : Prop :=
  ∀ (ds : List (Option ℕ)) (u : AbiType) (r s : List Char), Erased u → EndsType r → EndsType s →
    t.text ++ layersText ds ++ r = u.text ++ s → t.wrap ds = u ∧ r = s

theorem ReadsType.readsBack {t : AbiType} (h : ReadsType t) :
    ReadsBack Erased EndsType AbiType.text t := by
  intro u r s hu hr hs heq
  exact h [] u r s hu hr hs (by rw [layersText, List.flatMap_nil, List.append_nil]; exact heq)

theorem readsType_of_word {t : AbiType} (ht : t.isElementary = true) : ReadsType t := by
  intro ds u r s hu hr hs heq
  obtain ⟨b, es, rfl, -, hcore⟩ := u.exists_core hu
  rw [AbiType.text_wrap] at heq
  rcases hcore with hb | ⟨ps, rfl⟩
  · obtain ⟨c, cs, hname, hletters⟩ := AbiType.letters_of_word ht
    obtain ⟨c', cs', hname', hletters'⟩ := AbiType.letters_of_word hb
    rw [AbiType.text_word ht, AbiType.text_word hb, List.append_assoc, List.append_assoc,
      List.append_assoc, List.append_assoc] at heq
    -- the word ends where the suffixes begin, and the letters in it where the digits do
    have hstop {q : List Char} (hq : EndsType q) (fs : List (Option ℕ)) :
        ∀ a ∈ (layersText fs ++ q).head?, a.isAlphanum = false := by
      intro a ha
      obtain ⟨halpha, hdigit⟩ := head_layersText hq a ha
      rw [Char.isAlphanum, halpha, hdigit]
      rfl
    have hall {v : AbiType} (hv : ∀ a ∈ v.word.1, a.isAlpha = true) :
        ∀ a ∈ v.word.1 ++ v.word.2, a.isAlphanum = true := by
      intro a ha
      rw [Char.isAlphanum, Bool.or_eq_true]
      exact (List.mem_append.mp ha).imp (hv a) (v.digits_of_word a)
    have hdigits (v : AbiType) : ∀ a ∈ v.word.2.head?, (!a.isDigit) = false := by
      intro a ha
      rw [v.digits_of_word a (List.mem_of_mem_head? ha)]
      rfl
    rw [← hname] at hletters
    rw [← hname'] at hletters'
    have hword := Delimited.word_inj (hall fun a ha => (hletters a ha).1)
      (hall fun a ha => (hletters' a ha).1) (hstop hr ds) (hstop hs es)
      (by rw [List.append_assoc, List.append_assoc]; exact heq)
    have hparts := Delimited.word_inj (p := fun a => !a.isDigit)
      (fun a ha => by rw [(hletters a ha).2]; rfl) (fun a ha => by rw [(hletters' a ha).2]; rfl)
      (hdigits t) (hdigits b) hword.1
    obtain ⟨hlayers, hrest⟩ := layersText_inj hr hs hword.2
    rw [AbiType.word_inj ht hb (Prod.ext hparts.1 hparts.2), hlayers]
    exact ⟨rfl, hrest⟩
  · rw [List.append_assoc, List.append_assoc] at heq
    exact absurd heq (AbiType.text_ne_tuple ht ps _ _)

theorem ends_comma (r : List Char) : EndsType (',' :: r) := fun _ hc =>
  Or.inl (Option.some.inj hc).symm

theorem ends_close (r : List Char) : EndsType (')' :: r) := fun _ hc =>
  Or.inr (Option.some.inj hc).symm

/-- The list of the types of some parameters is read back where each of them is. -/
theorem types_inj {ps qs : List AbiParam} {r s : List Char} (hps : AbiType.eraseAll ps = ps)
    (hqs : AbiType.eraseAll qs = qs) (hreads : ∀ p ∈ ps, ReadsType p.abiType)
    (h : List.intercalate [','] ((ps.map AbiParam.abiType).map AbiType.text) ++ ')' :: r =
      List.intercalate [','] ((qs.map AbiParam.abiType).map AbiType.text) ++ ')' :: s) :
    ps = qs ∧ r = s := by
  have herased {ps : List AbiParam} (h : AbiType.eraseAll ps = ps) :
      ∀ t ∈ ps.map AbiParam.abiType, Erased t := by
    induction ps with
    | nil => exact fun t ht => absurd ht List.not_mem_nil
    | cons p ps ih =>
      obtain ⟨-, hp, hrest⟩ := eraseAll_cons h
      intro t ht
      rcases List.mem_cons.mp ht with rfl | ht
      · exact hp
      · exact ih hrest t ht
  have hopen : ∀ (b : AbiType) (t : List Char), Erased b → (b.text ++ t).head? ≠ some ')' := by
    intro b t hb habs
    obtain ⟨c, hc, hkind⟩ := b.head_text hb t
    obtain rfl : c = ')' := Option.some.inj (hc.symm.trans habs)
    exact absurd hkind (by decide)
  have hinj := intercalate_inj (by decide) ends_comma ends_close hopen
    (fun t ht => by
      obtain ⟨p, hp, rfl⟩ := List.mem_map.mp ht
      exact ⟨herased hps _ ht, (hreads p hp).readsBack⟩)
    (herased hqs) h
  exact ⟨eq_of_types hps hqs hinj.1, hinj.2⟩

mutual

theorem readsType : ∀ t : AbiType, Erased t → ReadsType t
  | .array inner, h => by
    intro ds u r s hu hr hs heq
    refine readsType inner (erased_array.mp h) (none :: ds) u r s hu hr hs ?_
    rw [← heq, layersText, List.flatMap_cons, ← List.append_assoc]
    exact congrArg (· ++ layersText ds ++ r) (inner.text_layer none).symm
  | .fixedArray inner len, h => by
    intro ds u r s hu hr hs heq
    refine readsType inner (erased_fixedArray.mp h) (some len :: ds) u r s hu hr hs ?_
    rw [← heq, layersText, List.flatMap_cons, ← List.append_assoc]
    exact congrArg (· ++ layersText ds ++ r) (inner.text_layer (some len)).symm
  | .tuple ps, h => by
    intro ds u r s hu hr hs heq
    obtain ⟨b, es, rfl, hb, hcore⟩ := u.exists_core hu
    rw [AbiType.text_wrap] at heq
    rcases hcore with hword | ⟨qs, rfl⟩
    · rw [List.append_assoc, List.append_assoc] at heq
      exact absurd heq.symm (AbiType.text_ne_tuple hword ps _ _)
    · rw [AbiType.text_tuple, AbiType.text_tuple] at heq
      simp only [List.cons_append, List.append_assoc, List.nil_append, List.cons.injEq,
        true_and] at heq
      obtain ⟨rfl, hrest⟩ := types_inj (erased_tuple.mp h) (erased_tuple.mp hb)
        (readsTypes ps (erased_tuple.mp h)) heq
      obtain ⟨rfl, hend⟩ := layersText_inj hr hs hrest
      exact ⟨rfl, hend⟩
  | .uint _, _ => readsType_of_word rfl
  | .int _, _ => readsType_of_word rfl
  | .address, _ => readsType_of_word rfl
  | .bool, _ => readsType_of_word rfl
  | .fixedBytes _, _ => readsType_of_word rfl
  | .bytes, _ => readsType_of_word rfl
  | .string, _ => readsType_of_word rfl

theorem readsTypes : ∀ ps : List AbiParam, AbiType.eraseAll ps = ps → ∀ p ∈ ps,
    ReadsType p.abiType
  | [], _, p, hp => absurd hp List.not_mem_nil
  | .mk _ t _ :: ps, h, p, hp => by
    obtain ⟨-, ht, hps⟩ := eraseAll_cons h
    rcases List.mem_cons.mp hp with rfl | hp
    · exact readsType t ht
    · exact readsTypes ps hps p hp

end

theorem signatureString_toList (name : String) (inputs : List AbiParam) :
    (AbiEvent.signatureString name inputs).toList = name.toList ++ '(' ::
      (List.intercalate [','] ((inputs.map AbiParam.abiType).map AbiType.text) ++ [')']) := by
  rw [AbiEvent.signatureString, String.toList_append, String.toList_append, String.toList_append,
    String.toList_intercalate, toSolStrings_eq, List.append_assoc, List.append_assoc]
  rfl

theorem signatureString_eraseAll (name : String) (inputs : List AbiParam) :
    AbiEvent.signatureString name (AbiType.eraseAll inputs) =
      AbiEvent.signatureString name inputs := by
  rw [AbiEvent.signatureString, AbiEvent.signatureString, AbiType.toSolStrings_eraseAll]

theorem signatureString_inj {name name' : String} {inputs inputs' : List AbiParam}
    (hname : '(' ∉ name.toList) (hname' : '(' ∉ name'.toList)
    (h : AbiEvent.signatureString name inputs = AbiEvent.signatureString name' inputs') :
    name = name' ∧ AbiType.eraseAll inputs = AbiType.eraseAll inputs' := by
  rw [← signatureString_eraseAll name, ← signatureString_eraseAll name'] at h
  have hchars := congrArg String.toList h
  rw [signatureString_toList, signatureString_toList] at hchars
  have hletters {n : String} (hn : '(' ∉ n.toList) : ∀ c ∈ n.toList, decide (c ≠ '(') = true := by
    intro c hc
    rw [decide_eq_true_iff]
    intro heq
    exact hn (heq ▸ hc)
  have hstop (t : List Char) : ∀ c ∈ ('(' :: t).head?, decide (c ≠ '(') = false := by simp
  obtain ⟨hnames, hrest⟩ := Delimited.word_inj (hletters hname) (hletters hname') (hstop _) (hstop _)
    hchars
  have htypes := types_inj (AbiType.eraseAll_eraseAll inputs) (AbiType.eraseAll_eraseAll inputs')
    (readsTypes _ (AbiType.eraseAll_eraseAll inputs)) (List.cons.inj hrest).2
  exact ⟨String.toList_inj.mp hnames, htypes.1⟩

/-- The events that the parser gives have the selector of their signature. -/
def SelectorOf (keccak256 : Bytes → Hash32) (e : AbiEvent) : Prop :=
  e.selector = AbiEvent.computeSelector keccak256 (AbiEvent.signatureString e.name e.inputs)

theorem selectorOf_parseAbiItems {keccak256 : Bytes → Hash32} {items : List Json}
    {abi abi' : ParsedAbi} (h : parseAbiItems keccak256 items abi = .ok abi')
    (habi : ∀ e ∈ abi.events, SelectorOf keccak256 e) :
    ∀ e ∈ abi'.events, SelectorOf keccak256 e := by
  induction items generalizing abi with
  | nil =>
    cases h
    exact habi
  | cons item items ih =>
    unfold parseAbiItems at h
    split at h
    · cases hevent : parseEvent keccak256 item with
      | error err =>
        rw [hevent] at h
        cases h
      | ok event =>
        rw [hevent] at h
        refine ih h fun e he => ?_
        rcases List.mem_append.mp he with hold | hnew
        · exact habi e hold
        · obtain rfl := List.mem_singleton.mp hnew
          unfold parseEvent at hevent
          split at hevent
          · cases hevent
          · cases hinputs : paramsAt item "inputs" with
            | error err =>
              rw [hinputs] at hevent
              cases hevent
            | ok inputs =>
              rw [hinputs] at hevent
              cases hevent
              rfl
    · cases hfunction : parseFunction item with
      | error err =>
        rw [hfunction] at h
        cases h
      | ok function =>
        rw [hfunction] at h
        exact ih h habi
    · exact ih h habi

theorem selectorOf_parseAbi {fromStr : String → Except String (List Json)}
    {keccak256 : Bytes → Hash32} {json : String} {abi : ParsedAbi}
    (h : parseAbi fromStr keccak256 json = .ok abi) : ∀ e ∈ abi.events, SelectorOf keccak256 e := by
  unfold parseAbi at h
  split at h
  · cases h
  · exact selectorOf_parseAbiItems h fun e he => absurd he List.not_mem_nil

/-- Events that are the same up to the names and flags of their parameters. -/
def SameEvent (e e' : AbiEvent) : Prop :=
  e.name = e'.name ∧ AbiType.eraseAll e.inputs = AbiType.eraseAll e'.inputs

/-- The bytes of two signatures differ, and their hashes do not. -/
def Collision (keccak256 : Bytes → Hash32) (signature signature' : String) : Prop :=
  Utf8.encode signature.toList ≠ Utf8.encode signature'.toList ∧
    keccak256 (Utf8.encode signature.toList) = keccak256 (Utf8.encode signature'.toList)

/-- Events with one signature are the same, and those with one selector are the same or a collision
of the hash. -/
theorem signature_unambiguous (e e' : AbiEvent) (hname : '(' ∉ e.name.toList)
    (hname' : '(' ∉ e'.name.toList) :
    (AbiEvent.signatureString e.name e.inputs = AbiEvent.signatureString e'.name e'.inputs →
      SameEvent e e') ∧
    ∀ (fromStr : String → Except String (List Json)) (keccak256 : Bytes → Hash32) (json : String)
      (abi : ParsedAbi), parseAbi fromStr keccak256 json = .ok abi → e ∈ abi.events →
      e' ∈ abi.events → e.selector = e'.selector → SameEvent e e' ∨
        Collision keccak256 (AbiEvent.signatureString e.name e.inputs)
          (AbiEvent.signatureString e'.name e'.inputs) := by
  refine ⟨signatureString_inj hname hname', ?_⟩
  intro fromStr keccak256 json abi habi he he' hselector
  have hhash := selectorOf_parseAbi habi e he
  have hhash' := selectorOf_parseAbi habi e' he'
  rw [SelectorOf, hselector, hhash'] at hhash
  by_cases hbytes : Utf8.encode (AbiEvent.signatureString e.name e.inputs).toList =
      Utf8.encode (AbiEvent.signatureString e'.name e'.inputs).toList
  · have hchars := congrArg Utf8.decodeLossy hbytes
    rw [Utf8.decodeLossy_encode, Utf8.decodeLossy_encode] at hchars
    exact Or.inl (signatureString_inj hname hname' (String.toList_inj.mp hchars))
  · exact Or.inr ⟨hbytes, hhash.symm⟩

/-- `Pair((bool))` with other names and flags. -/
theorem signature_unambiguous_pair :
    SameEvent ⟨"Pair", "", Hash32.zero, [.mk "left" (.tuple [.mk "x" .bool false]) true]⟩
      ⟨"Pair", "", Hash32.zero, [.mk "right" (.tuple [.mk "y" .bool false]) false]⟩ :=
  (signature_unambiguous _ _ (by decide) (by decide)).1 rfl

end ForgeIndex
