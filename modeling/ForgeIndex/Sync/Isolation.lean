import ForgeIndex.Lib.Replay
import ForgeIndex.Sync.History

/-!
# Chains beside each other

`process_block` lets go of the chain's entry before it asks the node, so that calls of different
chains overlap; the calls of one chain come one after the other, as its processor makes them.
-/

namespace ForgeIndex

namespace ReorgDetector

open Replay

/-- What a call returns; `seed_block` gives no decision. -/
abbrev Result := Except SyncError (Option ReorgDecision)

/-- A call as one step. -/
def Call.run (d : ReorgDetector) : Call → Result × ReorgDetector
  | .processBlock x => ((d.decision x).map some, d.feed x)
  | .seedBlock chainId number hash => (.ok none, d.seedBlock chainId number hash)

/-- The call returned an error. -/
def failed (r : Result) : Bool := !r.isOk

/-- The detector with the state of one chain only. -/
def alone (d : ReorgDetector) (c : UInt64) : ReorgDetector := fun k => if k = c then d c else none

theorem findForkPoint_congr {d d' : ReorgDetector} {chainId : UInt64} (h : d chainId = d' chainId)
    (clients : BlockClients) (block : Block) :
    findForkPoint clients d chainId block = findForkPoint clients d' chainId block := by
  unfold findForkPoint
  rw [h]

theorem stateOf_congr {d d' : ReorgDetector} {c : UInt64} (h : d c = d' c) :
    d.stateOf c = d'.stateOf c := by
  unfold stateOf
  rw [h]

theorem run_of_passes {d : ReorgDetector} {x : Delivery}
    (h : (d.stateOf x.chainId).passes x.block = true) :
    Call.run d (.processBlock x) = (.ok (some .normal), (d.accept x.chainId x.block).2) := by
  show ((d.processBlock x.clients x.chainId x.block).1.map some,
    (d.processBlock x.clients x.chainId x.block).2) = _
  rw [processBlock_of_passes h]
  rfl

theorem run_of_error {d : ReorgDetector} {x : Delivery} {e : SyncError}
    (h : (d.stateOf x.chainId).passes x.block = false)
    (hfork : findForkPoint x.clients d x.chainId x.block = .error e) :
    Call.run d (.processBlock x) = (.error e, d) := by
  show ((d.processBlock x.clients x.chainId x.block).1.map some,
    (d.processBlock x.clients x.chainId x.block).2) = _
  rw [processBlock_of_not_passes h, hfork]
  rfl

theorem run_of_fork {d : ReorgDetector} {x : Delivery} {forkBlock : UInt64}
    (h : (d.stateOf x.chainId).passes x.block = false)
    (hfork : findForkPoint x.clients d x.chainId x.block = .ok forkBlock) :
    Call.run d (.processBlock x) =
      (.ok (some (.reorg x.chainId forkBlock x.block.number)), Function.update d x.chainId (some
        ((d.stateOf x.chainId).pruneAbove (if forkBlock = 0 then 0 else forkBlock - 1)))) := by
  show ((d.processBlock x.clients x.chainId x.block).1.map some,
    (d.processBlock x.clients x.chainId x.block).2) = _
  rw [processBlock_of_not_passes h, hfork]
  rfl

theorem run_reads {d d' : ReorgDetector} (call : Call) (h : d call.chainId = d' call.chainId) :
    (call.run d).1 = (call.run d').1 ∧
      (call.run d).2 call.chainId = (call.run d').2 call.chainId := by
  have hstate : d.stateOf call.chainId = d'.stateOf call.chainId := stateOf_congr h
  cases call with
  | seedBlock chainId number hash =>
    refine ⟨rfl, ?_⟩
    show (Function.update d chainId _) chainId = (Function.update d' chainId _) chainId
    rw [Function.update_self, Function.update_self]
    exact congrArg (fun s => some (s.push number hash)) hstate
  | processBlock x =>
    change d.stateOf x.chainId = d'.stateOf x.chainId at hstate
    have hfork := findForkPoint_congr h x.clients x.block
    cases hpass : (d.stateOf x.chainId).passes x.block with
    | true =>
      rw [run_of_passes hpass, run_of_passes (hstate ▸ hpass)]
      refine ⟨rfl, ?_⟩
      show (Function.update d x.chainId _) x.chainId = (Function.update d' x.chainId _) x.chainId
      rw [Function.update_self, Function.update_self, hstate]
    | false =>
      have hpass' : (d'.stateOf x.chainId).passes x.block = false := hstate ▸ hpass
      cases hresult : findForkPoint x.clients d x.chainId x.block with
      | error e =>
        rw [run_of_error hpass hresult, run_of_error hpass' (hfork.symm.trans hresult)]
        exact ⟨rfl, h⟩
      | ok forkBlock =>
        rw [run_of_fork hpass hresult, run_of_fork hpass' (hfork.symm.trans hresult)]
        refine ⟨rfl, ?_⟩
        show (Function.update d x.chainId _) x.chainId = (Function.update d' x.chainId _) x.chainId
        rw [Function.update_self, Function.update_self, hstate]

theorem run_writes (d : ReorgDetector) (call : Call) {k : UInt64} (hk : k ≠ call.chainId) :
    (call.run d).2 k = d k := by
  cases call with
  | seedBlock chainId number hash => exact Function.update_of_ne hk _ _
  | processBlock x =>
    cases hpass : (d.stateOf x.chainId).passes x.block with
    | true =>
      rw [run_of_passes hpass]
      exact Function.update_of_ne hk _ _
    | false =>
      cases hfork : findForkPoint x.clients d x.chainId x.block with
      | error e => rw [run_of_error hpass hfork]
      | ok forkBlock =>
        rw [run_of_fork hpass hfork]
        exact Function.update_of_ne hk _ _

theorem run_silent (d : ReorgDetector) (call : Call) (h : failed (call.run d).1 = true) :
    (call.run d).2 = d := by
  cases call with
  | seedBlock chainId number hash => cases h
  | processBlock x =>
    cases hpass : (d.stateOf x.chainId).passes x.block with
    | true =>
      rw [run_of_passes hpass] at h
      cases h
    | false =>
      cases hfork : findForkPoint x.clients d x.chainId x.block with
      | error e => rw [run_of_error hpass hfork]
      | ok forkBlock =>
        rw [run_of_fork hpass hfork] at h
        cases h

/-- A call of the detector touches its own chain, and a call that fails touches nothing. -/
theorem keyed_run : Keyed Call.run Call.chainId failed where
  reads _ _ call h := run_reads call h
  writes d call _ hk := run_writes d call hk
  silent d call h := run_silent d call h

/-- A call of `process_block` that has let go of its chain's entry. -/
inductive Pending where
  /-- It asks the node for the fork point. -/
  | walking (x : Delivery)
  /-- It has the fork point and has yet to prune. -/
  | pruning (x : Delivery) (forkBlock : UInt64)

/-- The detector, the calls under way, and the calls that have returned, in that order. -/
structure Overlap where
  detector : ReorgDetector
  pending : UInt64 → Option Pending
  log : List (Call × Result)

/-- The steps of the calls. -/
inductive Action where
  | seedBlock (chainId number : UInt64) (hash : Hash32)
  | beginBlock (x : Delivery)
  | walk (chainId : UInt64)
  | prune (chainId : UInt64)

namespace Overlap

/-- No call, and this detector. -/
def start (d : ReorgDetector) : Overlap := ⟨d, fun _ => none, []⟩

/-- A call of the chain returns. -/
def finish (s : Overlap) (detector : ReorgDetector) (call : Call) (r : Result) : Overlap where
  detector := detector
  pending := Function.update s.pending call.chainId none
  log := s.log ++ [(call, r)]

/-- A call of the chain goes on. -/
def wait (s : Overlap) (c : UInt64) (y : Pending) : Overlap :=
  { s with pending := Function.update s.pending c (some y) }

/-- The calls of a chain begin when the one before has returned. -/
def Enabled (s : Overlap) : Action → Prop
  | .seedBlock chainId _ _ => (s.pending chainId).isNone = true
  | .beginBlock x => (s.pending x.chainId).isNone = true
  | .walk _ => True
  | .prune _ => True

instance (s : Overlap) (a : Action) : Decidable (s.Enabled a) := by
  cases a <;> unfold Enabled <;> infer_instance

/-- The steps of `process_block` and `seed_block`. -/
def effect (s : Overlap) : Action → Overlap
  | .seedBlock chainId number hash =>
    s.finish (s.detector.seedBlock chainId number hash) (.seedBlock chainId number hash) (.ok none)
  | .beginBlock x =>
    if (s.detector.stateOf x.chainId).passes x.block then
      s.finish (s.detector.accept x.chainId x.block).2 (.processBlock x) (.ok (some .normal))
    else s.wait x.chainId (.walking x)
  | .walk chainId =>
    match s.pending chainId with
    | some (.walking x) =>
      match findForkPoint x.clients s.detector x.chainId x.block with
      | .error e => s.finish s.detector (.processBlock x) (.error e)
      | .ok forkBlock => s.wait chainId (.pruning x forkBlock)
    | _ => s
  | .prune chainId =>
    match s.pending chainId with
    | some (.pruning x forkBlock) =>
      s.finish (Function.update s.detector x.chainId (some
        ((s.detector.stateOf x.chainId).pruneAbove (if forkBlock = 0 then 0 else forkBlock - 1))))
        (.processBlock x) (.ok (some (.reorg x.chainId forkBlock x.block.number)))
    | _ => s

end Overlap

/-- The calls of all chains beside each other. -/
def overlapping : Guarded Overlap Action where
  enabled := Overlap.Enabled
  decidable := inferInstance
  effect := Overlap.effect

/-- The system after some steps. -/
def overlap (d : ReorgDetector) (as : List Action) : Overlap :=
  as.foldl overlapping.step (Overlap.start d)

namespace Overlap

/-- The calls that have returned are, with their answers, those of a run of one call at a time,
and what a call under way has found out still holds. -/
structure Linear (d₀ : ReorgDetector) (s : Overlap) : Prop where
  log : history Call.run d₀ (s.log.map Prod.fst) = s.log
  detector : after Call.run d₀ (s.log.map Prod.fst) = s.detector
  walking : ∀ c x, s.pending c = some (.walking x) →
    x.chainId = c ∧ (s.detector.stateOf c).passes x.block = false
  pruning : ∀ c x forkBlock, s.pending c = some (.pruning x forkBlock) →
    x.chainId = c ∧ (s.detector.stateOf c).passes x.block = false ∧
      findForkPoint x.clients s.detector c x.block = .ok forkBlock

variable {d₀ : ReorgDetector} {s : Overlap}

theorem linear_start (d₀ : ReorgDetector) : Linear d₀ (start d₀) where
  log := rfl
  detector := rfl
  walking _ _ h := by cases h
  pruning _ _ _ h := by cases h

theorem Linear.finish (h : Linear d₀ s) {call : Call} {r : Result} {d : ReorgDetector}
    (hrun : call.run s.detector = (r, d)) : Linear d₀ (s.finish d call r) := by
  -- the call writes its own chain only, so the findings of the others still hold
  have hother (k : UInt64) (hk : k ≠ call.chainId) : d k = s.detector k := by
    have hwrites := run_writes s.detector call hk
    rw [hrun] at hwrites
    exact hwrites
  -- the calls under way afterwards are the others
  have hpending (k : UInt64) (y : Pending) (hy : (s.finish d call r).pending k = some y) :
      k ≠ call.chainId ∧ s.pending k = some y := by
    change Function.update s.pending call.chainId none k = some y at hy
    by_cases hk : k = call.chainId
    · rw [hk, Function.update_self] at hy
      cases hy
    · rw [Function.update_of_ne hk] at hy
      exact ⟨hk, hy⟩
  constructor
  · show history Call.run d₀ ((s.log ++ [(call, r)]).map Prod.fst) = s.log ++ [(call, r)]
    rw [List.map_append, history_append, h.log, h.detector, List.map_singleton]
    show s.log ++ [(call, (call.run s.detector).1)] = _
    rw [hrun]
  · show after Call.run d₀ ((s.log ++ [(call, r)]).map Prod.fst) = d
    rw [List.map_append, after_append, h.detector, List.map_singleton]
    show (call.run s.detector).2 = d
    rw [hrun]
  · intro c x hx
    obtain ⟨hc, hx⟩ := hpending c _ hx
    show x.chainId = c ∧ (d.stateOf c).passes x.block = false
    rw [stateOf_congr (hother c hc)]
    exact h.walking c x hx
  · intro c x forkBlock hx
    obtain ⟨hc, hx⟩ := hpending c _ hx
    show x.chainId = c ∧ (d.stateOf c).passes x.block = false ∧
      findForkPoint x.clients d c x.block = .ok forkBlock
    rw [stateOf_congr (hother c hc), findForkPoint_congr (hother c hc)]
    exact h.pruning c x forkBlock hx

theorem Linear.wait (h : Linear d₀ s) {c : UInt64} {y : Pending}
    (hwalking : ∀ x, y = .walking x → x.chainId = c ∧ (s.detector.stateOf c).passes x.block = false)
    (hpruning : ∀ x forkBlock, y = .pruning x forkBlock →
      x.chainId = c ∧ (s.detector.stateOf c).passes x.block = false ∧
        findForkPoint x.clients s.detector c x.block = .ok forkBlock) :
    Linear d₀ (s.wait c y) := by
  have hpending (k : UInt64) (z : Pending)
      (hz : Function.update s.pending c (some y) k = some z) :
      (k = c ∧ y = z) ∨ s.pending k = some z := by
    by_cases hk : k = c
    · rw [hk, Function.update_self] at hz
      exact Or.inl ⟨hk, Option.some.inj hz⟩
    · rw [Function.update_of_ne hk] at hz
      exact Or.inr hz
  refine ⟨h.log, h.detector, ?_, ?_⟩
  · intro k x hx
    rcases hpending k _ hx with ⟨rfl, hy⟩ | hold
    · exact hwalking x hy
    · exact h.walking k x hold
  · intro k x forkBlock hx
    rcases hpending k _ hx with ⟨rfl, hy⟩ | hold
    · exact hpruning x forkBlock hy
    · exact h.pruning k x forkBlock hold

theorem Linear.step (h : Linear d₀ s) (a : Action) : Linear d₀ (overlapping.step s a) := by
  apply Guarded.step_preserves h
  intro _
  show Linear d₀ (s.effect a)
  cases a with
  | seedBlock chainId number hash => exact h.finish rfl
  | beginBlock x =>
    cases hpass : (s.detector.stateOf x.chainId).passes x.block with
    | true =>
      simp only [effect, hpass, if_true]
      exact h.finish (run_of_passes hpass)
    | false =>
      simp only [effect, hpass, Bool.false_eq_true, if_false]
      apply h.wait
      · intro y hy
        cases hy
        exact ⟨rfl, hpass⟩
      · intro y forkBlock hy
        cases hy
  | walk chainId =>
    cases hpending : s.pending chainId with
    | none =>
      simp only [effect, hpending]
      exact h
    | some y =>
      cases y with
      | pruning x forkBlock =>
        simp only [effect, hpending]
        exact h
      | walking x =>
        -- the block did not pass when the call began, and the chain has not changed since
        obtain ⟨hid, hpass⟩ := h.walking chainId x hpending
        subst hid
        cases hfork : findForkPoint x.clients s.detector x.chainId x.block with
        | error e =>
          simp only [effect, hpending, hfork]
          exact h.finish (run_of_error hpass hfork)
        | ok forkBlock =>
          simp only [effect, hpending, hfork]
          apply h.wait
          · intro y hy
            cases hy
          · intro y fork hy
            cases hy
            exact ⟨rfl, hpass, hfork⟩
  | prune chainId =>
    cases hpending : s.pending chainId with
    | none =>
      simp only [effect, hpending]
      exact h
    | some y =>
      cases y with
      | walking x =>
        simp only [effect, hpending]
        exact h
      | pruning x forkBlock =>
        obtain ⟨hid, hpass, hfork⟩ := h.pruning chainId x forkBlock hpending
        subst hid
        simp only [effect, hpending]
        exact h.finish (run_of_fork hpass hfork)

theorem linear_overlap (d₀ : ReorgDetector) (as : List Action) : Linear d₀ (overlap d₀ as) := by
  unfold overlap
  induction as using List.reverseRecOn with
  | nil => exact linear_start d₀
  | append_singleton as a ih =>
    rw [List.foldl_append]
    exact ih.step a

end Overlap

/-- Chains do not interfere, and failed calls leave no trace: however the calls of all chains
overlap, and whatever the nodes answer, the calls of one chain that have returned without an error
get the same decisions when they are made alone, one after the other, and leave the same state. -/
theorem overlap_isolated (d₀ : ReorgDetector) (as : List Action) (c : UInt64) :
    let s := overlap d₀ as
    let calls := own Call.chainId failed c s.log
    history Call.run (d₀.alone c) (calls.map Prod.fst) = calls ∧
      after Call.run (d₀.alone c) (calls.map Prod.fst) c = s.detector c := by
  intro s calls
  -- the log is that of calls made one after the other, and from these the chain's own are taken
  have hlinear := Overlap.linear_overlap d₀ as
  have hself : d₀ c = d₀.alone c c := by
    unfold alone
    rw [if_pos rfl]
  have halone := keyed_run.own_alone c hself (s.log.map Prod.fst)
  rw [hlinear.log, hlinear.detector] at halone
  exact halone

end ReorgDetector

end ForgeIndex
