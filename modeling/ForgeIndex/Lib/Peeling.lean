import ForgeIndex.Lib.Delimited
import Mathlib.Data.List.Induction

/-!
# Texts that are peeled from the end

A reader that takes piece after piece off the end of a text, until none is left there, and reads
the rest in another way.
-/

namespace Peeling

variable {σ δ β : Type}

/-- `peel` takes off a piece whenever the text ends with one, and says what it stands for. -/
structure Peels (piece : List σ → δ → Prop) (peel : List σ → Option (List σ × δ)) : Prop where
  peel_iff : ∀ cs rest d, peel cs = some (rest, d) ↔ ∃ text, piece text d ∧ cs = rest ++ text
  ne_nil : ∀ text d, piece text d → text ≠ []

/-- A text as a base that ends with no piece, and the pieces behind it. -/
structure Peeled (piece : List σ → δ → Prop) (peel : List σ → Option (List σ × δ))
    (cs base : List σ) (pieces : List (List σ × δ)) : Prop where
  bare : peel base = none
  all_pieces : ∀ p ∈ pieces, piece p.1 p.2
  text : cs = base ++ pieces.flatMap Prod.fst

section Reader

variable {piece : List σ → δ → Prop} {peel : List σ → Option (List σ × δ)}

theorem flatMap_concat (ps : List (List σ × δ)) (p : List σ × δ) :
    (ps ++ [p]).flatMap Prod.fst = ps.flatMap Prod.fst ++ p.1 := by
  simp

theorem Peels.exists_peeled (h : Peels piece peel) (cs : List σ) :
    ∃ base pieces, Peeled piece peel cs base pieces := by
  induction hn : cs.length using Nat.strongRecOn generalizing cs with
  | _ n ih =>
    cases hpeel : peel cs with
    | none => exact ⟨cs, [], hpeel, by simp, by simp⟩
    | some r =>
      obtain ⟨text, hpiece, hcs⟩ := (h.peel_iff cs r.1 r.2).mp hpeel
      have hlen : r.1.length < n := by
        have hpos := List.length_pos_of_ne_nil (h.ne_nil text r.2 hpiece)
        rw [← hn, hcs, List.length_append]
        omega
      obtain ⟨base, pieces, hbare, hpieces, htext⟩ := ih r.1.length hlen r.1 rfl
      refine ⟨base, pieces ++ [(text, r.2)], hbare, ?_, ?_⟩
      · intro p hp
        rcases List.mem_append.mp hp with hp | hp
        · exact hpieces p hp
        · rw [List.mem_singleton.mp hp]
          exact hpiece
      · rw [flatMap_concat, ← List.append_assoc, ← htext, ← hcs]

/-- A reader that recurses over the pieces folds them over what it reads from the base. -/
theorem Peels.run (h : Peels piece peel) {parse : ℕ → List σ → β} (leaf : List σ → β)
    (layer : β → δ → β) (hzero : ∀ cs, parse 0 cs = leaf cs)
    (hbare : ∀ n cs, peel cs = none → parse (n + 1) cs = leaf cs)
    (hpeel : ∀ n cs rest d, peel cs = some (rest, d) → parse (n + 1) cs = layer (parse n rest) d)
    {cs base : List σ} {pieces : List (List σ × δ)} (hcs : Peeled piece peel cs base pieces) {n : ℕ}
    (hn : cs.length ≤ n) : parse n cs = (pieces.map Prod.snd).foldl layer (leaf base) := by
  induction pieces using List.reverseRecOn generalizing cs n with
  | nil =>
    have hbase : cs = base := by rw [hcs.text, List.flatMap_nil, List.append_nil]
    rw [hbase]
    cases n with
    | zero => exact hzero base
    | succ n => exact hbare n base hcs.bare
  | append_singleton ps p ih =>
    have hpiece := hcs.all_pieces p (by simp)
    have htext : cs = (base ++ ps.flatMap Prod.fst) ++ p.1 := by
      rw [hcs.text, flatMap_concat, List.append_assoc]
    have hpos := List.length_pos_of_ne_nil (h.ne_nil p.1 p.2 hpiece)
    rw [htext, List.length_append] at hn
    cases n with
    | zero => omega
    | succ n =>
      have hfirst : peel cs = some (base ++ ps.flatMap Prod.fst, p.2) :=
        (h.peel_iff _ _ _).mpr ⟨p.1, hpiece, htext⟩
      have hrest : Peeled piece peel (base ++ ps.flatMap Prod.fst) base ps :=
        ⟨hcs.bare, fun q hq => hcs.all_pieces q (List.mem_append_left _ hq), rfl⟩
      rw [hpeel n cs _ _ hfirst, ih hrest (by omega), List.map_append, List.foldl_append]
      rfl

end Reader

/-- A piece begins with a letter that does not come again in it. -/
def Opens (c : σ) (text : List σ) : Prop := ∃ u, c ∉ u ∧ text = c :: u

variable {c : σ}

theorem append_inj_of_opens [DecidableEq σ] {x y s t : List σ} (hs : Opens c s) (ht : Opens c t)
    (h : x ++ s = y ++ t) : x = y ∧ s = t := by
  obtain ⟨u, hu, rfl⟩ := hs
  obtain ⟨v, hv, rfl⟩ := ht
  -- read from the end, `u` and `v` are words that end at the letter
  have hrev : u.reverse ++ c :: x.reverse = v.reverse ++ c :: y.reverse := by
    have happ := congrArg List.reverse h
    simpa using happ
  have hword (w : List σ) (hw : c ∉ w) : ∀ a ∈ w.reverse, decide (a ≠ c) = true := by
    intro a ha
    rw [decide_eq_true_iff]
    rintro rfl
    exact hw (List.mem_reverse.mp ha)
  have hstop (w : List σ) : ∀ a ∈ (c :: w).head?, decide (a ≠ c) = false := by simp
  obtain ⟨huv, hxy⟩ := Delimited.word_inj (hword u hu) (hword v hv) (hstop _) (hstop _) hrev
  rw [List.reverse_injective huv, List.reverse_injective (List.cons.inj hxy).2]
  exact ⟨rfl, rfl⟩

/-- As many such pieces behind two bases make the same text only when they are the same. -/
theorem flatten_inj_of_opens [DecidableEq σ] {x y : List σ} {ss ts : List (List σ)}
    (hs : ∀ s ∈ ss, Opens c s) (ht : ∀ t ∈ ts, Opens c t) (hlen : ss.length = ts.length)
    (h : x ++ ss.flatten = y ++ ts.flatten) : x = y ∧ ss = ts := by
  induction ss using List.reverseRecOn generalizing ts with
  | nil =>
    obtain rfl : ts = [] := List.length_eq_zero_iff.mp hlen.symm
    exact ⟨by simpa using h, rfl⟩
  | append_singleton ss s ih =>
    rcases List.eq_nil_or_concat ts with rfl | ⟨ts, t, rfl⟩
    · simp at hlen
    · rw [List.concat_eq_append] at *
      rw [List.flatten_concat, List.flatten_concat, ← List.append_assoc, ← List.append_assoc] at h
      obtain ⟨hrest, hlast⟩ := append_inj_of_opens (hs s (by simp)) (ht t (by simp)) h
      have hboth := ih (fun a ha => hs a (List.mem_append_left _ ha))
        (fun a ha => ht a (List.mem_append_left _ ha)) (by simpa using hlen) hrest
      exact ⟨hboth.1, by rw [hboth.2, hlast]⟩

end Peeling
