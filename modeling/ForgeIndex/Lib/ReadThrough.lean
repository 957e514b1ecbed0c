import Mathlib.Logic.Function.Basic
import ForgeIndex.Lib.FirstWins
import ForgeIndex.Lib.Proc

/-!
# Reads through a table

A read looks its request up in a table; what it does not find there it asks a source for, and then
inserts, and the first row of a key stays.  Both the lookup and the insertion may fail, and the read
goes on when they do.  Any number of reads run at the same time.
-/

/-- What a read is made of, over a world. -/
structure ReadThrough (W ε κ V : Type) where
  get : κ → Proc W ε (Option V)
  put : κ → V → Proc W ε Unit
  hit : W → W
  miss : W → W

namespace ReadThrough

variable {W ε κ V T : Type}

/-- One read. -/
def read {ε' : Type} (c : ReadThrough W ε κ V) (inner : κ → Except ε' V) (k : κ) :
    Proc W ε' V := do
  match ← Proc.attempt (c.get k) with
  | .ok (some v) =>
    Proc.modify c.hit
    pure v
  | _ =>
    Proc.modify c.miss
    let v ← Proc.ofExcept (inner k)
    Proc.ignore (c.put k v)
    pure v

inductive Phase (V : Type) where
  | idle
  | missed
  | answered (v : V)
  | served (hit : Bool) (v : V)
  | failed
  | stopped

/-- The world, where each read stands, and what the source has answered so far. -/
structure State (W κ V T : Type) where
  world : W
  phase : T → Phase V
  answers : List (κ × V)

def State.initial (w : W) : State W κ V T := ⟨w, fun _ => .idle, []⟩

inductive Action (V T : Type) where
  | look (t : T)
  | ask (t : T) (reply : Option V)
  | store (t : T)

variable [DecidableEq T]

def State.goTo (s : State W κ V T) (t : T) (p : Phase V) (w : W) (answers : List (κ × V)) :
    State W κ V T :=
  ⟨w, Function.update s.phase t p, answers⟩

variable (c : ReadThrough W ε κ V) (request : T → κ)

def look (s : State W κ V T) (t : T) : State W κ V T :=
  let r := c.get (request t) s.world
  match r.1 with
  | .ok (some v) => s.goTo t (.served true v) (c.hit r.2) s.answers
  | .stopped => s.goTo t .stopped r.2 s.answers
  | _ => s.goTo t .missed (c.miss r.2) s.answers

def ask (s : State W κ V T) (t : T) : Option V → State W κ V T
  | some v => s.goTo t (.answered v) s.world (s.answers ++ [(request t, v)])
  | none => s.goTo t .failed s.world s.answers

def store (s : State W κ V T) (t : T) (v : V) : State W κ V T :=
  let r := c.put (request t) v s.world
  match r.1 with
  | .stopped => s.goTo t .stopped r.2 s.answers
  | _ => s.goTo t (.served false v) r.2 s.answers

/-- A read that has not come to the action stays where it is. -/
def step (s : State W κ V T) : Action V T → State W κ V T
  | .look t =>
    match s.phase t with
    | .idle => look c request s t
    | _ => s
  | .ask t reply =>
    match s.phase t with
    | .missed => ask request s t reply
    | _ => s
  | .store t =>
    match s.phase t with
    | .answered v => store c request s t v
    | _ => s

/-- Reads from a world, in any order. -/
def run (w : W) (actions : List (Action V T)) : State W κ V T :=
  actions.foldl (step c request) (State.initial w)

theorem look_cases (s : State W κ V T) (t : T) :
    (∃ v, (c.get (request t) s.world).1 = .ok (some v) ∧ look c request s t =
        s.goTo t (.served true v) (c.hit (c.get (request t) s.world).2) s.answers) ∨
      look c request s t = s.goTo t .missed (c.miss (c.get (request t) s.world).2) s.answers ∨
      look c request s t = s.goTo t .stopped (c.get (request t) s.world).2 s.answers := by
  unfold look
  dsimp only
  cases hx : (c.get (request t) s.world).1 with
  | ok x =>
    cases x with
    | some v => exact .inl ⟨v, rfl, rfl⟩
    | none => exact .inr (.inl rfl)
  | err e => exact .inr (.inl rfl)
  | stopped => exact .inr (.inr rfl)

theorem store_cases (s : State W κ V T) (t : T) (v : V) :
    store c request s t v =
        s.goTo t (.served false v) (c.put (request t) v s.world).2 s.answers ∨
      store c request s t v = s.goTo t .stopped (c.put (request t) v s.world).2 s.answers := by
  unfold store
  dsimp only
  cases hx : (c.put (request t) v s.world).1 with
  | ok x => exact .inl rfl
  | err e => exact .inl rfl
  | stopped => exact .inr rfl

variable {c request} in
theorem request_of_mem_step {s : State W κ V T} (a : Action V T)
    (hs : ∀ x ∈ s.answers, ∃ t, x.1 = request t) :
    ∀ x ∈ (step c request s a).answers, ∃ t, x.1 = request t := by
  unfold step
  cases a with
  | look t =>
    dsimp only
    split
    · rcases look_cases c request s t with ⟨v, -, hlook⟩ | hlook | hlook
      · rw [hlook]
        exact hs
      · rw [hlook]
        exact hs
      · rw [hlook]
        exact hs
    · exact hs
  | ask t reply =>
    dsimp only
    split
    · cases reply with
      | none => exact hs
      | some v =>
        intro x hx
        rcases List.mem_append.mp hx with hold | hnew
        · exact hs x hold
        · exact ⟨t, congrArg Prod.fst (List.mem_singleton.mp hnew)⟩
    · exact hs
  | store t =>
    dsimp only
    split
    · rename_i v _
      rcases store_cases c request s t v with hstore | hstore
      · rw [hstore]
        exact hs
      · rw [hstore]
        exact hs
    · exact hs

variable {c request} in
theorem request_of_mem_run {w : W} {actions : List (Action V T)} :
    ∀ x ∈ (run c request w actions).answers, ∃ t, x.1 = request t := by
  have hinitial : ∀ x ∈ (State.initial w : State W κ V T).answers, ∃ t, x.1 = request t :=
    fun x hx => absurd hx List.not_mem_nil
  unfold run
  generalize (State.initial w : State W κ V T) = s at hinitial
  induction actions generalizing s with
  | nil => exact hinitial
  | cons a as ih =>
    apply ih
    exact request_of_mem_step a hinitial

/-- The table that the lookups read and the insertions add to. -/
structure Table (c : ReadThrough W ε κ V) (R K : Type) [DecidableEq K] where
  rows : W → List R
  rowKey : R → K
  key : κ → K
  row : κ → V → R
  value : R → Option V
  rows_get : ∀ k w, rows (c.get k w).2 = rows w
  get_eq : ∀ k w x, (c.get k w).1 = .ok x →
    x = ((rows w).find? fun r => rowKey r = key k).bind value
  rows_put : ∀ k v w, rows (c.put k v w).2 = rows w ∨
    rows (c.put k v w).2 =
      FirstWins.insertNew (fun r r' => decide (rowKey r' = rowKey r)) (rows w) (row k v)
  rows_hit : ∀ w, rows (c.hit w) = rows w
  rows_miss : ∀ w, rows (c.miss w) = rows w

namespace Table

variable {c request} {R K : Type} [DecidableEq K] (tb : Table c R K)

/-- What the table holds for a request. -/
def held (w : W) (k : κ) : Option V :=
  ((tb.rows w).find? fun r => tb.rowKey r = tb.key k).bind tb.value

/-- What is known of a read that stands in a phase. -/
def Known (request : T → κ) (s : State W κ V T) (t : T) : Phase V → Prop
  | .answered v | .served false v => (request t, v) ∈ s.answers
  | .served true v => tb.held s.world (request t) = some v
  | _ => True

/-- The rows come from the beginning or from answers of the source. -/
structure Kept (request : T → κ) (w₀ : W) (s : State W κ V T) : Prop where
  rows : ∀ r ∈ tb.rows s.world,
    r ∈ tb.rows w₀ ∨ ∃ k v, (k, v) ∈ s.answers ∧ r = tb.row k v
  known : ∀ t, tb.Known request s t (s.phase t)

variable {tb}

theorem held_of_prefix {w w' : W} (h : tb.rows w <+: tb.rows w') {k : κ} {v : V}
    (hheld : tb.held w k = some v) : tb.held w' k = some v := by
  unfold held at hheld ⊢
  obtain ⟨r, hr, hv⟩ := Option.bind_eq_some_iff.mp hheld
  rw [h.find?_eq_some hr]
  exact hv

omit [DecidableEq T] in
theorem Known.mono {s s' : State W κ V T} (hrows : tb.rows s.world <+: tb.rows s'.world)
    (hanswers : s.answers ⊆ s'.answers) {t : T} {p : Phase V} (h : tb.Known request s t p) :
    tb.Known request s' t p := by
  cases p with
  | served hit v =>
    cases hit with
    | true => exact held_of_prefix hrows h
    | false => exact hanswers h
  | answered v => exact hanswers h
  | idle | missed | failed | stopped => exact trivial

theorem Kept.goTo {w₀ : W} {s : State W κ V T} (h : tb.Kept request w₀ s) {t : T} {p : Phase V}
    {w : W} {answers : List (κ × V)} (hfront : tb.rows s.world <+: tb.rows w)
    (hanswers : s.answers ⊆ answers)
    (hrows : ∀ r ∈ tb.rows w, r ∈ tb.rows s.world ∨
      ∃ k v, (k, v) ∈ answers ∧ r = tb.row k v)
    (hp : tb.Known request (s.goTo t p w answers) t p) :
    tb.Kept request w₀ (s.goTo t p w answers) where
  rows r hr := by
    rcases hrows r hr with hold | hnew
    · rcases h.rows r hold with hfirst | ⟨k, v, hmem, heq⟩
      · exact .inl hfirst
      · exact .inr ⟨k, v, hanswers hmem, heq⟩
    · exact .inr hnew
  known u := by
    by_cases hu : u = t
    · subst hu
      rw [show (s.goTo u p w answers).phase u = p from Function.update_self _ _ _]
      exact hp
    · rw [show (s.goTo t p w answers).phase u = s.phase u from Function.update_of_ne hu _ _]
      exact (h.known u).mono hfront hanswers

theorem Kept.goTo_same {w₀ : W} {s : State W κ V T} (h : tb.Kept request w₀ s) {t : T}
    {p : Phase V} {w : W} {answers : List (κ × V)} (hsame : tb.rows w = tb.rows s.world)
    (hanswers : s.answers ⊆ answers) (hp : tb.Known request (s.goTo t p w answers) t p) :
    tb.Kept request w₀ (s.goTo t p w answers) := by
  apply h.goTo _ hanswers _ hp
  · exact ⟨[], by rw [hsame, List.append_nil]⟩
  · intro r hr
    rw [hsame] at hr
    exact .inl hr

theorem Kept.look {w₀ : W} {s : State W κ V T} (h : tb.Kept request w₀ s) (t : T) :
    tb.Kept request w₀ (look c request s t) := by
  have hget := tb.rows_get (request t) s.world
  rcases look_cases c request s t with ⟨v, hx, hlook⟩ | hlook | hlook
  · rw [hlook]
    apply h.goTo_same ((tb.rows_hit _).trans hget) (List.Subset.refl _)
    show tb.held (c.hit _) (request t) = some v
    unfold held
    rw [tb.rows_hit, hget]
    exact (tb.get_eq _ _ _ hx).symm
  · rw [hlook]
    apply h.goTo_same ((tb.rows_miss _).trans hget) (List.Subset.refl _)
    exact trivial
  · rw [hlook]
    apply h.goTo_same hget (List.Subset.refl _)
    exact trivial

theorem Kept.ask {w₀ : W} {s : State W κ V T} (h : tb.Kept request w₀ s) (t : T)
    (reply : Option V) : tb.Kept request w₀ (ask request s t reply) := by
  cases reply with
  | some v =>
    apply h.goTo_same rfl (List.subset_append_left _ _)
    exact List.mem_append_right _ (List.mem_singleton.mpr rfl)
  | none =>
    apply h.goTo_same rfl (List.Subset.refl _)
    exact trivial

theorem Kept.store {w₀ : W} {s : State W κ V T} (h : tb.Kept request w₀ s) {t : T} {v : V}
    (hphase : s.phase t = .answered v) : tb.Kept request w₀ (store c request s t v) := by
  have hasked : (request t, v) ∈ s.answers := by
    have hknown := h.known t
    rwa [hphase] at hknown
  have hfront : tb.rows s.world <+: tb.rows (c.put (request t) v s.world).2 := by
    rcases tb.rows_put (request t) v s.world with hsame | hadd
    · exact ⟨[], by rw [hsame, List.append_nil]⟩
    · rw [hadd]
      apply FirstWins.prefix_insertNew
  have hrows : ∀ r ∈ tb.rows (c.put (request t) v s.world).2, r ∈ tb.rows s.world ∨
      ∃ k v, (k, v) ∈ s.answers ∧ r = tb.row k v := by
    intro r hr
    rcases tb.rows_put (request t) v s.world with hsame | hadd
    · exact .inl (hsame ▸ hr)
    · rw [hadd] at hr
      unfold FirstWins.insertNew at hr
      split_ifs at hr with hany
      · exact .inl hr
      · rcases List.mem_append.mp hr with hold | hnew
        · exact .inl hold
        · exact .inr ⟨request t, v, hasked, List.mem_singleton.mp hnew⟩
  rcases store_cases c request s t v with hstore | hstore
  · rw [hstore]
    apply h.goTo hfront (List.Subset.refl _) hrows
    exact hasked
  · rw [hstore]
    apply h.goTo hfront (List.Subset.refl _) hrows
    exact trivial

theorem Kept.step {w₀ : W} {s : State W κ V T} (h : tb.Kept request w₀ s) (a : Action V T) :
    tb.Kept request w₀ (step c request s a) := by
  unfold ReadThrough.step
  cases a with
  | look t =>
    dsimp only
    split
    · exact h.look t
    · exact h
  | ask t reply =>
    dsimp only
    split
    · exact h.ask t reply
    · exact h
  | store t =>
    dsimp only
    split
    · exact h.store ‹_›
    · exact h

theorem kept_run (w : W) (actions : List (Action V T)) :
    tb.Kept request w (run c request w actions) := by
  have hinitial : tb.Kept request w (State.initial w) := ⟨fun r hr => .inl hr, fun _ => trivial⟩
  unfold run
  generalize State.initial w = s at hinitial
  induction actions generalizing s with
  | nil => exact hinitial
  | cons a as ih =>
    apply ih
    exact hinitial.step a

variable (tb) in
/-- What a read returns was answered by the source, or it is the value of the first row of its
key. -/
theorem served_run {w : W} {actions : List (Action V T)} {t : T} {hit : Bool} {v : V}
    (h : (run c request w actions).phase t = .served hit v) :
    (hit = false ∧ (request t, v) ∈ (run c request w actions).answers) ∨
      hit = true ∧ tb.held (run c request w actions).world (request t) = some v := by
  have hknown := (kept_run w actions : tb.Kept request w _).known t
  rw [h] at hknown
  cases hit with
  | false => exact .inl ⟨rfl, hknown⟩
  | true => exact .inr ⟨rfl, hknown⟩

omit [DecidableEq T] in
/-- What is held was there at the beginning, or was answered by the source for a row of that key. -/
theorem Kept.held_from {w₀ : W} {s : State W κ V T} (h : tb.Kept request w₀ s) {k : κ} {v : V}
    (hheld : tb.held s.world k = some v) :
    (∃ r ∈ tb.rows w₀, tb.rowKey r = tb.key k ∧ tb.value r = some v) ∨
      ∃ k' v', (k', v') ∈ s.answers ∧ tb.rowKey (tb.row k' v') = tb.key k ∧
        tb.value (tb.row k' v') = some v := by
  unfold held at hheld
  obtain ⟨r, hr, hv⟩ := Option.bind_eq_some_iff.mp hheld
  have hfound := List.find?_some hr
  have hkey : tb.rowKey r = tb.key k := of_decide_eq_true hfound
  rcases h.rows r (List.mem_of_find?_eq_some hr) with hold | ⟨k', v', hmem, heq⟩
  · exact .inl ⟨r, hold, hkey, hv⟩
  · subst heq
    exact .inr ⟨k', v', hmem, hkey, hv⟩

variable (tb) in
theorem hits_agree {w : W} {actions : List (Action V T)} {t u : T} {v v' : V}
    (ht : (run c request w actions).phase t = .served true v)
    (hu : (run c request w actions).phase u = .served true v')
    (hkey : tb.key (request t) = tb.key (request u)) : v = v' := by
  rcases served_run tb ht with ⟨hfalse, -⟩ | ⟨-, hheld⟩
  · cases hfalse
  rcases served_run tb hu with ⟨hfalse, -⟩ | ⟨-, hheld'⟩
  · cases hfalse
  unfold held at hheld hheld'
  rw [hkey, hheld'] at hheld
  exact (Option.some.inj hheld).symm

end Table

variable {c request}

/-- What a read does when nothing was found. -/
def fetch {ε' : Type} (c : ReadThrough W ε κ V) (inner : κ → Except ε' V) (k : κ) : Proc W ε' V := do
  Proc.modify c.miss
  let v ← Proc.ofExcept (inner k)
  Proc.ignore (c.put k v)
  pure v

section Read

variable {ε' : Type} {inner : κ → Except ε' V} {k : κ} {w w' : W}

theorem read_hit {v : V} (h : c.get k w = (.ok (some v), w')) :
    c.read inner k w = (.ok v, c.hit w') := by
  unfold read
  rw [Proc.bind_of_ok (Proc.attempt_of_ok h)]
  rfl

theorem read_stopped (h : c.get k w = (.stopped, w')) : c.read inner k w = (.stopped, w') := by
  have hattempt : (Proc.attempt (c.get k) : Proc W ε' _) w = (.stopped, w') := by
    unfold Proc.attempt
    rw [h]
  exact Proc.bind_of_stopped hattempt

theorem read_none (h : c.get k w = (.ok none, w')) : c.read inner k w = c.fetch inner k w' := by
  unfold read
  rw [Proc.bind_of_ok (Proc.attempt_of_ok h)]
  rfl

theorem read_err {e : ε} (h : c.get k w = (.err e, w')) :
    c.read inner k w = c.fetch inner k w' := by
  unfold read
  rw [Proc.bind_of_ok (Proc.attempt_of_err h)]
  rfl

theorem fetch_error {e : ε'} (h : inner k = .error e) : c.fetch inner k w = (.err e, c.miss w) := by
  have hmiss : (Proc.modify c.miss : Proc W ε' Unit) w = (.ok (), c.miss w) := rfl
  unfold fetch
  rw [Proc.bind_of_ok hmiss, h]
  rfl

theorem fetch_ok {v : V} (h : inner k = .ok v) : c.fetch inner k w = (match (c.put k v (c.miss w)).1 with
      | .stopped => .stopped
      | _ => .ok v, (c.put k v (c.miss w)).2) := by
  have hmiss : (Proc.modify c.miss : Proc W ε' Unit) w = (.ok (), c.miss w) := rfl
  have hinner : (Proc.ofExcept (inner k) : Proc W ε' V) (c.miss w) = (.ok v, c.miss w) := by
    rw [h]
    rfl
  unfold fetch
  rw [Proc.bind_of_ok hmiss, Proc.bind_of_ok hinner]
  show Proc.bind (Proc.bind (Proc.attempt (c.put k v)) _) _ _ = _
  unfold Proc.bind Proc.attempt
  rcases c.put k v (c.miss w) with ⟨x | e | _, w''⟩
  · rfl
  · rfl
  · rfl

end Read

theorem goTo_phase (s : State W κ V T) (t : T) (p : Phase V) (w : W) (answers : List (κ × V)) :
    (s.goTo t p w answers).phase t = p := Function.update_self _ _ _

theorem step_look {s : State W κ V T} {t : T} (h : s.phase t = .idle) :
    step c request s (.look t) = look c request s t := by
  simp only [step, h]

theorem step_ask {s : State W κ V T} {t : T} (h : s.phase t = .missed) (reply : Option V) :
    step c request s (.ask t reply) = ask request s t reply := by
  simp only [step, h]

theorem step_store {s : State W κ V T} {t : T} {v : V} (h : s.phase t = .answered v) :
    step c request s (.store t) = store c request s t v := by
  simp only [step, h]

/-- A read that has come to its end. -/
def Phase.Done : Phase V → Prop
  | .served _ _ | .failed | .stopped => True
  | _ => False

theorem step_ask_done {s : State W κ V T} {t : T} (h : (s.phase t).Done) (reply : Option V) :
    step c request s (.ask t reply) = s := by
  simp only [step]
  split
  · rename_i hp
    rw [hp] at h
    exact h.elim
  · rfl

theorem step_store_done {s : State W κ V T} {t : T} (h : (s.phase t).Done) :
    step c request s (.store t) = s := by
  simp only [step]
  split
  · rename_i hp
    rw [hp] at h
    exact h.elim
  · rfl

/-- What a read has returned, and the state that it leaves. -/
structure Returned {ε' : Type} (s : State W κ V T) (t : T) (r : Ended ε' V × W) : Prop where
  world : r.2 = s.world
  ok : ∀ v, r.1 = .ok v → ∃ hit, s.phase t = .served hit v
  err : ∀ e, r.1 = .err e → s.phase t = .failed
  stopped : r.1 = .stopped → s.phase t = .stopped

theorem returned_ok {ε' : Type} (s : State W κ V T) (t : T) (hit : Bool) (v : V) (w : W)
    (answers : List (κ × V)) :
    Returned (s.goTo t (.served hit v) w answers) t ((.ok v, w) : Ended ε' V × W) where
  world := rfl
  ok v' h := by
    cases h
    exact ⟨hit, goTo_phase _ _ _ _ _⟩
  err _ h := by cases h
  stopped h := by cases h

theorem returned_err {ε' : Type} (s : State W κ V T) (t : T) (e : ε') (w : W)
    (answers : List (κ × V)) :
    Returned (s.goTo t .failed w answers) t ((.err e, w) : Ended ε' V × W) where
  world := rfl
  ok _ h := by cases h
  err _ _ := goTo_phase _ _ _ _ _
  stopped h := by cases h

theorem returned_stopped {ε' : Type} (s : State W κ V T) (t : T) (w : W)
    (answers : List (κ × V)) :
    Returned (s.goTo t .stopped w answers) t ((.stopped, w) : Ended ε' V × W) where
  world := rfl
  ok _ h := by cases h
  err _ h := by cases h
  stopped _ := goTo_phase _ _ _ _ _

theorem store_returned {ε' : Type} (s : State W κ V T) (t : T) (v : V) :
    Returned (store c request s t v) t
      ((match (c.put (request t) v s.world).1 with
        | .stopped => .stopped
        | _ => .ok v, (c.put (request t) v s.world).2) : Ended ε' V × W) := by
  unfold store
  dsimp only
  cases (c.put (request t) v s.world).1 with
  | ok x => exact returned_ok s t false v _ _
  | err e => exact returned_ok s t false v _ _
  | stopped => exact returned_stopped s t _ _

theorem fetch_returned {ε' : Type} (inner : κ → Except ε' V) (s : State W κ V T) (t : T) (w : W) :
    Returned ([.ask t (inner (request t)).toOption, .store t].foldl (step c request)
      (s.goTo t .missed (c.miss w) s.answers)) t (c.fetch inner (request t) w) := by
  rw [List.foldl_cons, step_ask (goTo_phase _ _ _ _ _), List.foldl_cons, List.foldl_nil]
  cases hinner : inner (request t) with
  | error e =>
    have hdone : ((ask request (s.goTo t .missed (c.miss w) s.answers) t none).phase t).Done := by
      rw [ask, goTo_phase]
      exact trivial
    show Returned (step c request (ask request _ t none) (.store t)) t _
    rw [step_store_done hdone, fetch_error hinner]
    exact returned_err _ t e _ _
  | ok v =>
    show Returned (step c request (ask request _ t (some v)) (.store t)) t _
    rw [ask, step_store (goTo_phase _ _ _ _ _), fetch_ok hinner]
    exact store_returned _ t v

theorem read_returned {ε' : Type} (inner : κ → Except ε' V) {s : State W κ V T} {t : T}
    (hidle : s.phase t = .idle) :
    Returned ([.look t, .ask t (inner (request t)).toOption, .store t].foldl (step c request) s) t
      (c.read inner (request t) s.world) := by
  rw [List.foldl_cons, step_look hidle, look]
  rcases hget : c.get (request t) s.world with ⟨x | e | _, w'⟩
  · cases x with
    | some v =>
      have hdone : ((s.goTo t (.served true v) (c.hit w') s.answers).phase t).Done := by
        rw [goTo_phase]
        exact trivial
      rw [read_hit hget]
      dsimp only
      rw [List.foldl_cons, step_ask_done hdone, List.foldl_cons, step_store_done hdone]
      exact returned_ok s t true v _ _
    | none =>
      rw [read_none hget]
      exact fetch_returned inner s t w'
  · rw [read_err hget]
    exact fetch_returned inner s t w'
  · have hdone : ((s.goTo t .stopped w' s.answers).phase t).Done := by
      rw [goTo_phase]
      exact trivial
    rw [read_stopped hget]
    dsimp only
    rw [List.foldl_cons, step_ask_done hdone, List.foldl_cons, step_store_done hdone]
    exact returned_stopped s t _ _

end ReadThrough
