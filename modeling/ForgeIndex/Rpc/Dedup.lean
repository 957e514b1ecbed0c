import Mathlib.Algebra.Group.Nat.Defs
import Mathlib.Data.Fintype.Basic
import ForgeIndex.Lib.Along

/-!
# Deduplication of requests in flight

`forge-index-rpc/src/dedup.rs`: any number of calls of `dedup` that run at the same time, as actions
of single calls in any order.  The closure of a call may give any result.
-/

namespace ForgeIndex

namespace RequestDedup

/-- `DEDUP_TIMEOUT`, in nanoseconds. -/
def dedupTimeout : ℕ := 30 * 10 ^ 9

/-- Where a call of `dedup` stands.  A channel is named after the call that made it. -/
inductive Phase (T R : Type) where
  | idle
  | looking
  | holding (sender : T)
  | waiting (sender : T) (late : Bool)
  | evicting (sender : T) (createdAt : ℕ)
  | inserted
  | running
  | finished (result : R)
  | sent (result : R)
  | removed (result : R)
  | returned (result : R)
  | panicked
  deriving DecidableEq

/-- What is noted of a run. -/
inductive Event (T R : Type) where
  | began (t : T)
  | finished (t : T) (result : R)
  | broadcast (t : T) (result : R)
  deriving DecidableEq

/-- The map, the channels and the calls.  `guard` is the call that holds the entry of a key,
`closure` whether the call still has its closure. -/
structure State (K T R : Type) where
  now : ℕ
  inFlight : K → Option (T × ℕ)
  guard : K → Option T
  message : T → Option R
  phase : T → Phase T R
  closure : T → Bool
  createdAt : T → ℕ
  history : List (Event T R)

/-- Nothing has been called yet. -/
def State.initial (K T R : Type) : State K T R where
  now := 0
  inFlight _ := none
  guard _ := none
  message _ := none
  phase _ := .idle
  closure _ := true
  createdAt _ := 0
  history := []

/-- One action of a call, or of the clock. -/
inductive Action (T R : Type) where
  | advance (duration : ℕ)
  | call (t : T)
  | find (t sender : T) (createdAt : ℕ)
  | findExpired (t sender : T) (createdAt : ℕ)
  | evict (t sender : T) (createdAt : ℕ)
  | subscribe (t sender : T)
  | receive (t sender : T) (result : R)
  | retry (t sender : T) (late : Bool)
  | insert (t : T)
  | start (t : T)
  | finish (t : T) (result : R)
  | broadcast (t : T) (result : R)
  | remove (t : T) (result : R)
  | ret (t : T) (result : R)

section System

variable {K T R : Type} [DecidableEq K] [DecidableEq T]

/-- The call has a sender of its channel: `tx_clone`, dropped on return. -/
def Phase.hasSender : Phase T R → Bool
  | inserted | running | finished _ | sent _ | removed _ => true
  | _ => false

/-- No sender of the channel is left, neither in the map nor with its call. -/
def State.closed (key : T → K) (s : State K T R) (sender : T) : Bool :=
  (s.inFlight (key sender)).map Prod.fst ≠ some sender && !(s.phase sender).hasSender

/-- The call has come to the action. -/
def Enabled (key : T → K) (s : State K T R) : Action T R → Prop
  | .advance _ => True
  | .call t => s.phase t = .idle
  | .find t sender createdAt => s.phase t = .looking ∧ s.guard (key t) = none ∧
      s.inFlight (key t) = some (sender, createdAt) ∧ s.now - createdAt < dedupTimeout
  | .findExpired t sender createdAt => s.phase t = .looking ∧ s.guard (key t) = none ∧
      s.inFlight (key t) = some (sender, createdAt) ∧ dedupTimeout ≤ s.now - createdAt
  | .evict t sender createdAt => s.phase t = .evicting sender createdAt ∧ s.guard (key t) = none
  | .subscribe t sender => s.phase t = .holding sender
  | .receive t sender result => s.phase t = .waiting sender false ∧ s.message sender = some result
  | .retry t sender late => s.phase t = .waiting sender late ∧ s.closed key sender ∧
      (late = true ∨ s.message sender = none)
  | .insert t => s.phase t = .looking ∧ s.guard (key t) = none ∧ s.inFlight (key t) = none
  | .start t => s.phase t = .inserted
  | .finish t _ => s.phase t = .running
  | .broadcast t result => s.phase t = .finished result
  | .remove t result => s.phase t = .sent result ∧ s.guard (key t) = none
  | .ret t result => s.phase t = .removed result

instance [DecidableEq R] (key : T → K) (s : State K T R) :
    (a : Action T R) → Decidable (Enabled key s a)
  | .advance _ => inferInstanceAs (Decidable True)
  | .call _ | .subscribe _ _ | .start _ | .finish _ _ | .broadcast _ _ | .ret _ _ =>
    inferInstanceAs (Decidable (_ = _))
  | .find _ _ _ | .findExpired _ _ _ => inferInstanceAs (Decidable (_ ∧ _ ∧ _ ∧ _))
  | .evict _ _ _ | .receive _ _ _ | .remove _ _ => inferInstanceAs (Decidable (_ ∧ _))
  | .retry _ _ _ => inferInstanceAs (Decidable (_ ∧ _ ∧ (_ ∨ _)))
  | .insert _ => inferInstanceAs (Decidable (_ ∧ _ ∧ _))

/-- The call goes on to a phase. -/
def State.goTo (s : State K T R) (t : T) (p : Phase T R) : State K T R :=
  { s with phase := Function.update s.phase t p }

/-- An event is noted. -/
def State.note (s : State K T R) (e : Event T R) : State K T R :=
  { s with history := s.history ++ [e] }

/-- What the action does. -/
def effect (key : T → K) (s : State K T R) : Action T R → State K T R
  | .advance duration => { s with now := s.now + duration }
  | .call t => (s.goTo t .looking).note (.began t)
  | .find t sender _ => { s.goTo t (.holding sender) with
      guard := Function.update s.guard (key t) (some t) }
  | .findExpired t sender createdAt => s.goTo t (.evicting sender createdAt)
  | .evict t _ _ => { s.goTo t .looking with
      inFlight := Function.update s.inFlight (key t) none }
  | .subscribe t sender => { s.goTo t (.waiting sender (s.message sender).isSome) with
      guard := Function.update s.guard (key t) none }
  | .receive t _ result => s.goTo t (.returned result)
  | .retry t _ _ => s.goTo t .looking
  | .insert t => { s.goTo t .inserted with
      inFlight := Function.update s.inFlight (key t) (some (t, s.now))
      createdAt := Function.update s.createdAt t s.now }
  | .start t =>
    if s.closure t then { s.goTo t .running with closure := Function.update s.closure t false }
    else s.goTo t .panicked
  | .finish t result => (s.goTo t (.finished result)).note (.finished t result)
  | .broadcast t result => { (s.goTo t (.sent result)).note (.broadcast t result) with
      message := Function.update s.message t (some result) }
  | .remove t result => { s.goTo t (.removed result) with
      inFlight := Function.update s.inFlight (key t) none }
  | .ret t result => s.goTo t (.returned result)

/-- `RequestDedup::dedup`, called any number of times. -/
def calls [DecidableEq R] (key : T → K) : Guarded (State K T R) (Action T R) :=
  ⟨Enabled key, fun _ _ => inferInstance, effect key⟩

end System

section Known

variable {K T R : Type}

/-- What a call has gone through when it stands in a phase. -/
def KnownAt (key : T → K) (s : State K T R) (t : T) : Phase T R → Prop
  | .idle => s.closure t = true
  | .looking | .evicting _ _ | .inserted => s.closure t = true ∧ .began t ∈ s.history
  | .holding sender => s.closure t = true ∧ .began t ∈ s.history ∧ key sender = key t
  | .waiting sender late => s.closure t = true ∧ .began t ∈ s.history ∧ key sender = key t ∧
      (late = false → ∀ r, s.message sender = some r →
        [.finished sender r, .broadcast sender r].Sublist s.history ∧
        [.began t, .broadcast sender r].Sublist s.history)
  | .running => .began t ∈ s.history
  | .finished r => .began t ∈ s.history ∧ .finished t r ∈ s.history
  | .sent r | .removed r => [.finished t r, .broadcast t r].Sublist s.history ∧
      [.began t, .broadcast t r].Sublist s.history
  | .returned r => ∃ sender, key sender = key t ∧
      [.finished sender r, .broadcast sender r].Sublist s.history ∧
      [.began t, .broadcast sender r].Sublist s.history
  | .panicked => False

/-- Every call has gone through what its phase says, and an entry belongs to a call of its key. -/
structure Accounted (key : T → K) (s : State K T R) : Prop where
  entry : ∀ k t c, s.inFlight k = some (t, c) → key t = k
  call : ∀ t, KnownAt key s t (s.phase t)

/-- The call of the action. -/
def Action.actor : Action T R → Option T
  | .advance _ => none
  | .call t | .find t _ _ | .findExpired t _ _ | .evict t _ _ | .subscribe t _ | .receive t _ _
  | .retry t _ _ | .insert t | .start t | .finish t _ | .broadcast t _ | .remove t _
  | .ret t _ => some t

/-- What an action leaves as it is for a call that does not take it. -/
structure Frame (s s' : State K T R) (u : T) : Prop where
  phase : s'.phase u = s.phase u
  closure : s'.closure u = s.closure u
  history : s.history <+: s'.history
  message : ∀ t r, s'.message t = some r → s.message t = some r ∨
    (.finished t r ∈ s.history ∧ s'.history = s.history ++ [.broadcast t r])

/-- Two events stand in the order of the history when the second is the last one. -/
theorem pair_sublist {history : List (Event T R)} {e e' : Event T R} (h : e ∈ history) :
    [e, e'].Sublist (history ++ [e']) :=
  (List.singleton_sublist.mpr h).append (List.Sublist.refl [e'])

theorem KnownAt.of_frame {key : T → K} {s s' : State K T R} {u : T}
    (h : KnownAt key s u (s.phase u)) (hframe : Frame s s' u) :
    KnownAt key s' u (s'.phase u) := by
  obtain ⟨hphase, hclosure, hhistory, hmessage⟩ := hframe
  have hmem {e : Event T R} (he : e ∈ s.history) : e ∈ s'.history := hhistory.subset he
  have hsub {l : List (Event T R)} (hl : l.Sublist s.history) : l.Sublist s'.history :=
    hl.trans hhistory.sublist
  rw [hphase]
  generalize s.phase u = p at h
  unfold KnownAt
  rw [hclosure]
  cases p with
  | idle | panicked => exact h
  | looking | evicting | inserted => exact ⟨h.1, hmem h.2⟩
  | holding sender => exact ⟨h.1, hmem h.2.1, h.2.2⟩
  | waiting sender late =>
    obtain ⟨hc, hbegan, hkey, hlate⟩ := h
    refine ⟨hc, hmem hbegan, hkey, fun hl r hr => ?_⟩
    rcases hmessage sender r hr with hold | ⟨hfinished, hnew⟩
    · exact ⟨hsub (hlate hl r hold).1, hsub (hlate hl r hold).2⟩
    -- the message is the one of this step
    · rw [hnew]
      exact ⟨pair_sublist hfinished, pair_sublist hbegan⟩
  | running => exact hmem h
  | finished r => exact ⟨hmem h.1, hmem h.2⟩
  | sent r | removed r => exact ⟨hsub h.1, hsub h.2⟩
  | returned r =>
    obtain ⟨sender, hkey, hfinished, hbegan⟩ := h
    exact ⟨sender, hkey, hsub hfinished, hsub hbegan⟩

variable [DecidableEq K] [DecidableEq T]

theorem frame_effect {key : T → K} {s : State K T R} {a : Action T R} (hs : Accounted key s)
    (he : Enabled key s a) {u : T} (hu : a.actor ≠ some u) : Frame s (effect key s a) u := by
  have hne {t : T} (h : (some t : Option T) ≠ some u) : u ≠ t := fun hut => h (by rw [hut])
  cases a with
  | advance duration => exact ⟨rfl, rfl, List.prefix_rfl, fun _ _ => .inl⟩
  | call t =>
    exact ⟨Function.update_of_ne (hne hu) _ _, rfl, List.prefix_append _ _, fun _ _ => .inl⟩
  | finish t r =>
    exact ⟨Function.update_of_ne (hne hu) _ _, rfl, List.prefix_append _ _, fun _ _ => .inl⟩
  | start t =>
    unfold effect
    dsimp only
    split_ifs
    · exact ⟨Function.update_of_ne (hne hu) _ _, Function.update_of_ne (hne hu) _ _,
        List.prefix_rfl, fun _ _ => .inl⟩
    · exact ⟨Function.update_of_ne (hne hu) _ _, rfl, List.prefix_rfl, fun _ _ => .inl⟩
  | broadcast t r =>
    refine ⟨Function.update_of_ne (hne hu) _ _, rfl, List.prefix_append _ _, fun t' r' h => ?_⟩
    change Function.update s.message t (some r) t' = some r' at h
    by_cases ht : t' = t
    · right
      rw [ht, Function.update_self] at h
      cases h
      have hfinished := hs.call t
      rw [show s.phase t = .finished r from he] at hfinished
      rw [ht]
      exact ⟨hfinished.2, rfl⟩
    · left
      rw [Function.update_of_ne ht] at h
      exact h
  | find t sender c | findExpired t sender c | evict t sender c | subscribe t sender
  | receive t sender r | retry t sender late | insert t | remove t r | ret t r =>
    exact ⟨Function.update_of_ne (hne hu) _ _, rfl, List.prefix_rfl, fun _ _ => .inl⟩

omit [DecidableEq K] [DecidableEq T] in
theorem knownAt_of_phase {key : T → K} {s : State K T R} {t : T} {p : Phase T R}
    (hp : s.phase t = p) (h : KnownAt key s t p) : KnownAt key s t (s.phase t) := by
  rw [hp]
  exact h

theorem knownAt_actor {key : T → K} {s : State K T R} {a : Action T R} (hs : Accounted key s)
    (he : Enabled key s a) {t : T} (ht : a.actor = some t) :
    KnownAt key (effect key s a) t ((effect key s a).phase t) := by
  have hcall := hs.call t
  cases a with
  | advance duration => cases ht
  | call t =>
    cases ht
    rw [show s.phase t = .idle from he] at hcall
    apply knownAt_of_phase (Function.update_self t .looking s.phase)
    exact ⟨hcall, List.mem_append_right _ (List.mem_singleton_self _)⟩
  | find t sender c =>
    cases ht
    rw [he.1] at hcall
    apply knownAt_of_phase (Function.update_self t (.holding sender) s.phase)
    exact ⟨hcall.1, hcall.2, hs.entry _ _ _ he.2.2.1⟩
  | findExpired t sender c =>
    cases ht
    rw [he.1] at hcall
    apply knownAt_of_phase (Function.update_self t (.evicting sender c) s.phase)
    exact hcall
  | evict t sender c =>
    cases ht
    rw [he.1] at hcall
    apply knownAt_of_phase (Function.update_self t .looking s.phase)
    exact hcall
  | subscribe t sender =>
    cases ht
    rw [show s.phase t = .holding sender from he] at hcall
    apply knownAt_of_phase
      (Function.update_self t (.waiting sender (s.message sender).isSome) s.phase)
    refine ⟨hcall.1, hcall.2.1, hcall.2.2, fun hlate r hr => ?_⟩
    -- nothing has been sent before the subscription
    have hr' : s.message sender = some r := hr
    rw [hr'] at hlate
    cases hlate
  | receive t sender r =>
    cases ht
    rw [he.1] at hcall
    apply knownAt_of_phase (Function.update_self t (.returned r) s.phase)
    obtain ⟨-, -, hkey, hlate⟩ := hcall
    exact ⟨sender, hkey, hlate rfl r he.2⟩
  | retry t sender late =>
    cases ht
    rw [he.1] at hcall
    apply knownAt_of_phase (Function.update_self t .looking s.phase)
    exact ⟨hcall.1, hcall.2.1⟩
  | insert t =>
    cases ht
    rw [he.1] at hcall
    apply knownAt_of_phase (Function.update_self t .inserted s.phase)
    exact hcall
  | start t =>
    cases ht
    rw [show s.phase t = .inserted from he] at hcall
    unfold effect
    dsimp only
    rw [if_pos hcall.1]
    apply knownAt_of_phase (Function.update_self t .running s.phase)
    exact hcall.2
  | finish t r =>
    cases ht
    rw [show s.phase t = .running from he] at hcall
    apply knownAt_of_phase (Function.update_self t (.finished r) s.phase)
    exact ⟨List.mem_append_left _ hcall, List.mem_append_right _ (List.mem_singleton_self _)⟩
  | broadcast t r =>
    cases ht
    rw [show s.phase t = .finished r from he] at hcall
    apply knownAt_of_phase (Function.update_self t (.sent r) s.phase)
    exact ⟨pair_sublist hcall.2, pair_sublist hcall.1⟩
  | remove t r =>
    cases ht
    rw [he.1] at hcall
    apply knownAt_of_phase (Function.update_self t (.removed r) s.phase)
    exact hcall
  | ret t r =>
    cases ht
    rw [show s.phase t = .removed r from he] at hcall
    apply knownAt_of_phase (Function.update_self t (.returned r) s.phase)
    exact ⟨t, rfl, hcall⟩

/-- An entry of the map was there before, or it is that of the call that inserts one. -/
theorem inFlight_effect {key : T → K} {s : State K T R} {a : Action T R} {k : K} {t : T} {c : ℕ}
    (h : (effect key s a).inFlight k = some (t, c)) :
    s.inFlight k = some (t, c) ∨ (a = .insert t ∧ k = key t ∧ c = s.now) := by
  have hcleared {k' : K} (h : Function.update s.inFlight k' none k = some (t, c)) :
      s.inFlight k = some (t, c) := by
    rw [Function.update_apply] at h
    split_ifs at h
    exact h
  cases a with
  | insert u =>
    change Function.update s.inFlight (key u) (some (u, s.now)) k = some (t, c) at h
    rw [Function.update_apply] at h
    split_ifs at h with hk
    · cases h
      exact .inr ⟨rfl, hk, rfl⟩
    · exact .inl h
  | evict u sender c' => exact .inl (hcleared h)
  | remove u r => exact .inl (hcleared h)
  | start u =>
    unfold effect at h
    dsimp only at h
    split_ifs at h
    · exact .inl h
    · exact .inl h
  | advance | call | find | findExpired | subscribe | receive | retry | finish | broadcast
  | ret => exact .inl h

theorem accounted_effect {key : T → K} {s : State K T R} {a : Action T R} (hs : Accounted key s)
    (he : Enabled key s a) : Accounted key (effect key s a) := by
  constructor
  · intro k t c h
    rcases inFlight_effect h with hold | ⟨-, hk, -⟩
    · exact hs.entry k t c hold
    · exact hk.symm
  · intro u
    by_cases hu : a.actor = some u
    · exact knownAt_actor hs he hu
    · exact (hs.call u).of_frame (frame_effect hs he hu)

omit [DecidableEq K] [DecidableEq T] in
theorem accounted_initial (key : T → K) : Accounted key (State.initial K T R) where
  entry k t c h := by cases h
  call t := rfl

/-- The call has inserted an entry and has not come past its removal. -/
def Phase.inCharge : Phase T R → Bool
  | inserted | running | finished _ | sent _ => true
  | _ => false

/-- An action that leaves the map alone and makes no call see an expired entry. -/
def Action.quiet : Action T R → Bool
  | .findExpired _ _ _ | .evict _ _ _ | .insert _ | .remove _ _ => false
  | _ => true

/-- Nothing that has to do with entries changes but the time. -/
structure Still (s s' : State K T R) : Prop where
  inFlight : s'.inFlight = s.inFlight
  createdAt : s'.createdAt = s.createdAt
  now : s.now ≤ s'.now
  inCharge : ∀ t, (s'.phase t).inCharge = (s.phase t).inCharge
  evicting : ∀ t sender c, s'.phase t = .evicting sender c → s.phase t = .evicting sender c

omit [DecidableEq K] in
theorem still_goTo {s : State K T R} {t : T} {p : Phase T R}
    (hcharge : p.inCharge = (s.phase t).inCharge) (hevicting : ∀ sender c, p ≠ .evicting sender c) :
    Still s (s.goTo t p) := by
  refine ⟨rfl, rfl, le_rfl, fun u => ?_, fun u sender c h => ?_⟩
  · show (Function.update s.phase t p u).inCharge = _
    by_cases hu : u = t
    · rw [hu, Function.update_self, hcharge]
    · rw [Function.update_of_ne hu]
  · change Function.update s.phase t p u = _ at h
    by_cases hu : u = t
    · rw [hu, Function.update_self] at h
      exact absurd h (hevicting sender c)
    · rw [Function.update_of_ne hu] at h
      exact h

theorem still_effect {key : T → K} {s : State K T R} {a : Action T R} (hs : Accounted key s)
    (he : Enabled key s a) (hquiet : a.quiet = true) : Still s (effect key s a) := by
  have hmove {t : T} {p q : Phase T R} (hp : s.phase t = p) (hcharge : q.inCharge = p.inCharge)
      (hevicting : ∀ sender c, q ≠ .evicting sender c) : Still s (s.goTo t q) :=
    still_goTo (by rw [hp, hcharge]) hevicting
  cases a with
  | advance duration =>
    exact ⟨rfl, rfl, Nat.le_add_right _ _, fun _ => rfl, fun _ _ _ h => h⟩
  | call t =>
    obtain ⟨-, -, -, hc, hv⟩ := hmove (q := .looking) he rfl (by simp)
    exact ⟨rfl, rfl, le_rfl, hc, hv⟩
  | find t sender c =>
    obtain ⟨-, -, -, hc, hv⟩ := hmove (q := .holding sender) he.1 rfl (by simp)
    exact ⟨rfl, rfl, le_rfl, hc, hv⟩
  | subscribe t sender =>
    obtain ⟨-, -, -, hc, hv⟩ :=
      hmove (q := .waiting sender (s.message sender).isSome) he rfl (by simp)
    exact ⟨rfl, rfl, le_rfl, hc, hv⟩
  | receive t sender r => exact hmove he.1 rfl (by simp)
  | retry t sender late => exact hmove he.1 rfl (by simp)
  | start t =>
    have hcall := hs.call t
    rw [show s.phase t = .inserted from he] at hcall
    obtain ⟨-, -, -, hc, hv⟩ := hmove (q := .running) he rfl (by simp)
    unfold effect
    dsimp only
    rw [if_pos hcall.1]
    exact ⟨rfl, rfl, le_rfl, hc, hv⟩
  | finish t r =>
    obtain ⟨-, -, -, hc, hv⟩ := hmove (q := .finished r) he rfl (by simp)
    exact ⟨rfl, rfl, le_rfl, hc, hv⟩
  | broadcast t r =>
    obtain ⟨-, -, -, hc, hv⟩ := hmove (q := .sent r) he rfl (by simp)
    exact ⟨rfl, rfl, le_rfl, hc, hv⟩
  | ret t r => exact hmove he rfl (by simp)
  | findExpired | evict | insert | remove => cases hquiet

/-- What holds of the entries as long as none is removed by another call before its time: a call
in charge has its entry in the map, or the entry has expired and any later one is younger. -/
structure Timed (key : T → K) (s : State K T R) : Prop where
  entry : ∀ k t c, s.inFlight k = some (t, c) →
    key t = k ∧ c = s.createdAt t ∧ (s.phase t).inCharge = true ∧ c ≤ s.now
  charge : ∀ t, (s.phase t).inCharge = true →
    s.inFlight (key t) = some (t, s.createdAt t) ∨ s.createdAt t + dedupTimeout ≤ s.now
  newer : ∀ t t' c', (s.phase t).inCharge = true → s.inFlight (key t) = some (t', c') → t' ≠ t →
    s.createdAt t + dedupTimeout ≤ c'
  evicting : ∀ t sender c, s.phase t = .evicting sender c → c + dedupTimeout ≤ s.now
  evictee : ∀ t sender c t' c', s.phase t = .evicting sender c →
    s.inFlight (key t) = some (t', c') → (t' = sender ∧ c' = c) ∨ c < c'

omit [DecidableEq K] [DecidableEq T] in
theorem Timed.of_still {key : T → K} {s s' : State K T R} (h : Timed key s) (hstill : Still s s') :
    Timed key s' := by
  obtain ⟨hmap, hcreated, hnow, hcharge, hevicting⟩ := hstill
  constructor
  · intro k t c hk
    rw [hmap] at hk
    obtain ⟨hkey, hc, hin, hle⟩ := h.entry k t c hk
    rw [hcreated, hcharge]
    exact ⟨hkey, hc, hin, by omega⟩
  · intro t ht
    rw [hcharge] at ht
    rw [hmap, hcreated]
    rcases h.charge t ht with hentry | hold
    · exact .inl hentry
    · right
      omega
  · intro t t' c' ht hk
    rw [hcharge] at ht
    rw [hmap] at hk
    rw [hcreated]
    exact h.newer t t' c' ht hk
  · intro t sender c ht
    have hc := h.evicting t sender c (hevicting t sender c ht)
    omega
  · intro t sender c t' c' ht hk
    rw [hmap] at hk
    exact h.evictee t sender c t' c' (hevicting t sender c ht) hk

omit [DecidableEq K] [DecidableEq T] in
theorem timed_initial (key : T → K) : Timed key (State.initial K T R) where
  entry k t c h := by cases h
  charge t h := by cases h
  newer t t' c' h := by cases h
  evicting t sender c h := by cases h
  evictee t sender c t' c' h := by cases h

/-- A call that removes the entry of its key finds none that is younger than its own entry, or than
the expired one that it has seen; a call that starts its closure finds no running request with an
entry that has not expired in the place of its own. -/
def Timely (key : T → K) (s : State K T R) : Action T R → Prop
  | .evict t _ createdAt => ∀ t' c', s.inFlight (key t) = some (t', c') → c' ≤ createdAt
  | .remove t _ => ∀ t' c', s.inFlight (key t) = some (t', c') → c' ≤ s.createdAt t
  | .start t => ∀ t' c', s.inFlight (key t) = some (t', c') → t' ≠ t → s.phase t' = .running →
      dedupTimeout ≤ s.now - c'
  | _ => True

theorem timed_effect {key : T → K} {s : State K T R} {a : Action T R} (hs : Accounted key s)
    (h : Timed key s) (he : Enabled key s a) (hn : Timely key s a) :
    Timed key (effect key s a) := by
  cases hquiet : a.quiet with
  | true => exact h.of_still (still_effect hs he hquiet)
  | false =>
    obtain ⟨h1, h2, h3, h4, h5⟩ := h
    have hpos : 0 < dedupTimeout := by decide
    cases a with
    | insert t =>
      obtain ⟨hlooking, -, hvacant⟩ := he
      -- a call in charge of the key without an entry has come of age
      have hold (u : T) (hu : (s.phase u).inCharge = true) (hkey : key u = key t) :
          s.createdAt u + dedupTimeout ≤ s.now := by
        apply (h2 u hu).resolve_left
        rw [hkey, hvacant]
        simp
      constructor <;> simp only [effect, State.goTo, Function.update_apply] <;>
        grind [Phase.inCharge]
    | remove t r =>
      obtain ⟨hsent, -⟩ := he
      have hin : (s.phase t).inCharge = true := by rw [hsent]; rfl
      -- what is removed is the call's own entry
      have hown (t' : T) (c' : ℕ) (hk : s.inFlight (key t) = some (t', c')) : t' = t := by
        by_contra hne
        have := h3 t t' c' hin hk hne
        have := hn t' c' hk
        omega
      constructor <;> simp only [effect, State.goTo, Function.update_apply] <;>
        grind [Phase.inCharge]
    | evict t sender c =>
      obtain ⟨hevicting, -⟩ := he
      have hexpired := h4 t sender c hevicting
      -- what is removed is the entry that was seen
      have hseen (t' : T) (c' : ℕ) (hk : s.inFlight (key t) = some (t', c')) :
          t' = sender ∧ c' = c := by
        apply (h5 t sender c t' c' hevicting hk).resolve_right
        have := hn t' c' hk
        omega
      constructor <;> simp only [effect, State.goTo, Function.update_apply] <;>
        grind [Phase.inCharge]
    | findExpired t sender c =>
      obtain ⟨hlooking, -, hentry, hexpired⟩ := he
      constructor <;> simp only [effect, State.goTo, Function.update_apply] <;>
        grind [Phase.inCharge]
    | _ => cases hquiet

/-- No entry of the map has reached the age limit. -/
def NoneExpired (s : State K T R) : Prop :=
  ∀ k, (s.inFlight k).all fun entry => s.now - entry.2 < dedupTimeout

/-- Every call in charge has its entry in the map, and no call has seen an expired one. -/
structure Held (key : T → K) (s : State K T R) : Prop where
  charge : ∀ t, (s.phase t).inCharge = true → s.inFlight (key t) = some (t, s.createdAt t)
  calm : ∀ t sender c, s.phase t ≠ .evicting sender c

omit [DecidableEq K] [DecidableEq T] in
theorem held_initial (key : T → K) : Held key (State.initial K T R) where
  charge t h := by cases h
  calm t sender c h := by cases h

theorem held_effect {key : T → K} {s : State K T R} {a : Action T R} (hs : Accounted key s)
    (h : Held key s) (he : Enabled key s a) (hfresh : NoneExpired s) :
    Held key (effect key s a) := by
  cases hquiet : a.quiet with
  | true =>
    obtain ⟨hmap, hcreated, -, hcharge, hevicting⟩ := still_effect hs he hquiet
    constructor
    · intro t ht
      rw [hcharge] at ht
      rw [hmap, hcreated]
      exact h.charge t ht
    · intro t sender c ht
      exact h.calm t sender c (hevicting t sender c ht)
  | false =>
    obtain ⟨h1, h2⟩ := h
    cases a with
    | insert t =>
      obtain ⟨hlooking, -, hvacant⟩ := he
      constructor <;> simp only [effect, State.goTo, Function.update_apply] <;>
        grind [Phase.inCharge]
    | remove t r =>
      obtain ⟨hsent, -⟩ := he
      have hown := h1 t (by rw [hsent]; rfl)
      constructor <;> simp only [effect, State.goTo, Function.update_apply] <;>
        grind [Phase.inCharge]
    | evict t sender c => exact absurd he.1 (h2 t sender c)
    | findExpired t sender c =>
      obtain ⟨-, -, hentry, hexpired⟩ := he
      have hage := hfresh (key t)
      rw [hentry] at hage
      simp only [Option.all_some, decide_eq_true_eq] at hage
      omega
    | _ => cases hquiet

/-- The result that a call has come to. -/
def Phase.result : Phase T R → Option R
  | finished r | sent r | removed r | returned r => some r
  | _ => none

/-- A call whose closure has finished has come to the closure's result. -/
def KeepsOwn (s : State K T R) : Prop :=
  ∀ t r, .finished t r ∈ s.history → (s.phase t).result = some r

theorem keepsOwn_effect {key : T → K} {s : State K T R} {a : Action T R} (h : KeepsOwn s)
    (he : Enabled key s a) : KeepsOwn (effect key s a) := by
  unfold KeepsOwn at *
  cases a with
  | start t =>
    unfold effect
    dsimp only
    split_ifs <;> simp only [State.goTo, Function.update_apply] <;> grind [Phase.result, Enabled]
  | _ =>
    simp only [effect, State.goTo, State.note, Function.update_apply]
    grind [Phase.result, Enabled]

/-- At most one closure runs for a key; a call returns the result of a closure of its key that was
broadcast after the call began, and that of its own closure if that has run; no call finds its
closure consumed. -/
structure SingleFlight (key : T → K) (s : State K T R) : Prop where
  running : ∀ t t', key t = key t' → s.phase t = .running → s.phase t' = .running → t = t'
  returned : ∀ t r, s.phase t = .returned r → ∃ sender, key sender = key t ∧
    [.finished sender r, .broadcast sender r].Sublist s.history ∧
    [.began t, .broadcast sender r].Sublist s.history
  own : ∀ t r r', s.phase t = .returned r → .finished t r' ∈ s.history → r = r'
  consumed : ∀ t, s.phase t ≠ .panicked

/-- Single flight, in every run in which no entry reaches the age limit. -/
theorem run_singleFlight [DecidableEq R] (key : T → K) (actions : List (Action T R))
    (hfresh : ∀ pre, pre <+: actions →
      NoneExpired (pre.foldl (calls key).step (State.initial K T R))) :
    SingleFlight key (actions.foldl (calls key).step (State.initial K T R)) := by
  obtain ⟨hfirst, hrest⟩ := forall_states_iff.mp hfresh
  have hinv : NoneExpired (actions.foldl (calls key).step (State.initial K T R)) ∧
      Accounted key (actions.foldl (calls key).step (State.initial K T R)) ∧
      Held key (actions.foldl (calls key).step (State.initial K T R)) ∧
      KeepsOwn (actions.foldl (calls key).step (State.initial K T R)) := by
    apply Along.invariant
      (I := fun s => NoneExpired s ∧ Accounted key s ∧ Held key s ∧ KeepsOwn s) _ _ hrest
    · rintro s a ⟨hnone, hs, hheld, hown⟩ hnext
      refine ⟨hnext, ?_⟩
      apply Guarded.step_preserves (I := fun s => Accounted key s ∧ Held key s ∧ KeepsOwn s)
        ⟨hs, hheld, hown⟩
      intro he
      exact ⟨accounted_effect hs he, held_effect hs hheld he hnone, keepsOwn_effect hown he⟩
    · exact ⟨hfirst, accounted_initial key, held_initial key, fun _ _ h => by cases h⟩
  obtain ⟨-, hs, hheld, hown⟩ := hinv
  constructor
  · intro t t' hkey ht ht'
    have h := hheld.charge t (by rw [ht]; rfl)
    have h' := hheld.charge t' (by rw [ht']; rfl)
    rw [hkey, h'] at h
    cases h
    rfl
  · intro t r ht
    have hcall := hs.call t
    rw [ht] at hcall
    exact hcall
  · intro t r r' ht hfinished
    have hresult := hown t r' hfinished
    rw [ht] at hresult
    exact Option.some.inj hresult
  · intro t ht
    have hcall := hs.call t
    rw [ht] at hcall
    exact hcall

/-- The first call has its closure's result, and the second one comes before it is broadcast. -/
def sharedResult : List (Action ℕ ℕ) :=
  [.call 0, .insert 0, .start 0, .finish 0 7, .call 1, .find 1 0 0, .subscribe 1 0, .broadcast 0 7,
    .receive 1 0 7, .remove 0 7, .ret 0 7]

theorem noneExpired_sharedResult : ∀ pre, pre <+: sharedResult →
    NoneExpired (pre.foldl (calls fun _ => ()).step (State.initial Unit ℕ ℕ)) := by
  apply (forall_states_iff (I := NoneExpired)).mpr
  unfold NoneExpired
  decide

/-- Both calls return 7. -/
theorem run_singleFlight_shared :
    SingleFlight (fun _ => ()) (sharedResult.foldl (calls fun _ => ()).step
      (State.initial Unit ℕ ℕ)) :=
  run_singleFlight _ _ noneExpired_sharedResult

/-- The second call returns the result of a closure that had finished before the call began. -/
theorem run_returns_earlier :
    let s := sharedResult.foldl (calls fun _ => ()).step (State.initial Unit ℕ ℕ)
    (∀ pre, pre <+: sharedResult →
      NoneExpired (pre.foldl (calls fun _ => ()).step (State.initial Unit ℕ ℕ))) ∧
      s.history = [.began 0, .finished 0 7, .began 1, .broadcast 0 7] ∧
      s.phase 1 = .returned 7 ∧
      ¬∃ sender, [.began 1, .finished sender 7].Sublist s.history := by
  intro s
  have hhistory : s.history = [.began 0, .finished 0 7, .began 1, .broadcast 0 7] := by decide
  refine ⟨noneExpired_sharedResult, hhistory, by decide, ?_⟩
  rintro ⟨sender, h⟩
  rw [hhistory] at h
  have hmem : Event.finished sender 7 ∈ [.began 0, .finished 0 7, .began 1, .broadcast 0 7] :=
    h.subset (List.mem_cons_of_mem _ (List.mem_singleton_self _))
  have hsender : sender = 0 := by simpa using hmem
  rw [hsender] at h
  exact absurd h (by decide)

/-- The action removes no entry but the call's own or the expired one that the call has seen, and
it starts no closure while another one of the key runs whose entry has not expired. -/
structure Exclusive (key : T → K) (s : State K T R) (a : Action T R) : Prop where
  evict : ∀ t sender c, a = .evict t sender c → ∀ entry, s.inFlight (key t) = some entry →
    entry = (sender, c)
  remove : ∀ t r, a = .remove t r → ∀ entry, s.inFlight (key t) = some entry → entry.1 = t
  start : ∀ t, a = .start t → ∀ t', t' ≠ t → key t' = key t → s.phase t' = .running →
    s.createdAt t' + dedupTimeout ≤ s.now

omit [DecidableEq K] in
theorem exclusive_iff_timely {key : T → K} {s : State K T R} {a : Action T R} (h : Timed key s)
    (he : Enabled key s a) : Exclusive key s a ↔ Timely key s a := by
  have hpos : 0 < dedupTimeout := by decide
  cases a with
  | evict t sender c =>
    constructor
    · intro hx t' c' hk
      cases hx.evict t sender c rfl _ hk
      exact le_rfl
    · intro hn
      refine ⟨?_, fun _ _ h => (by cases h), fun _ h => (by cases h)⟩
      intro t' sender' c' heq entry hk
      cases heq
      rcases h.evictee t sender c entry.1 entry.2 he.1 hk with ⟨hsender, hc⟩ | hlt
      · exact Prod.ext hsender hc
      · have hle := hn entry.1 entry.2 hk
        omega
  | remove t r =>
    constructor
    · intro hx t' c' hk
      have ht : t' = t := hx.remove t r rfl _ hk
      obtain ⟨-, hc, -, -⟩ := h.entry _ _ _ hk
      rw [hc, ht]
    · intro hn
      refine ⟨fun _ _ _ h => (by cases h), ?_, fun _ h => (by cases h)⟩
      intro t' r' heq entry hk
      cases heq
      by_contra hne
      have hyoung := h.newer t entry.1 entry.2 (by rw [he.1]; rfl) hk hne
      have hle := hn entry.1 entry.2 hk
      omega
  | start t =>
    constructor
    · intro hx t' c' hk hne hrunning
      obtain ⟨hkey, hc, -, hle⟩ := h.entry _ _ _ hk
      have hold := hx.start t rfl t' hne hkey hrunning
      omega
    · intro hn
      refine ⟨fun _ _ _ h => (by cases h), fun _ _ h => (by cases h), ?_⟩
      intro t' heq u hne hkey hrunning
      cases heq
      rcases h.charge u (by rw [hrunning]; rfl) with hentry | hold
      · rw [hkey] at hentry
        have hage := hn u _ hentry hne hrunning
        omega
      · exact hold
  | _ =>
    refine ⟨fun _ => trivial, fun _ => ?_⟩
    exact ⟨fun _ _ _ h => (by cases h), fun _ _ h => (by cases h), fun _ h => (by cases h)⟩

/-- In a run every removal is that of the call's own entry or of the one that it has seen expire,
and no closure starts beside a running one that has not expired, if and only if no call finds a
younger entry when it removes that of its key, or a running request in its place when it starts. -/
theorem run_exclusive_iff [DecidableEq R] (key : T → K) (actions : List (Action T R)) :
    Along (calls key).step (fun s a => Enabled key s a → Exclusive key s a)
        (State.initial K T R) actions ↔
      Along (calls key).step (fun s a => Enabled key s a → Timely key s a)
        (State.initial K T R) actions := by
  apply along_iff_of_invariant (I := fun s => Accounted key s ∧ Timed key s)
  · intro s a h
    exact forall_congr' fun he => exclusive_iff_timely h.2 he
  · intro s a h hx
    apply Guarded.step_preserves (I := fun s => Accounted key s ∧ Timed key s) h
    intro he
    have htimely := (exclusive_iff_timely h.2 he).mp (hx he)
    exact ⟨accounted_effect h.1 he, timed_effect h.1 h.2 he htimely⟩
  · exact ⟨accounted_initial key, timed_initial key⟩

/-- The second call evicts the entry of the first one; the first one then removes the entry of the
second, and a third call starts its closure. -/
def removedByOther : List (Action ℕ ℕ) :=
  [.call 0, .insert 0, .start 0, .advance dedupTimeout,
    .call 1, .findExpired 1 0 0, .evict 1 0 0, .insert 1, .start 1,
    .finish 0 7, .broadcast 0 7, .remove 0 7, .call 2, .insert 2, .start 2]

/-- Two closures run for one key, and the entries of neither have expired. -/
theorem run_not_exclusive :
    let s := removedByOther.foldl (calls fun _ => ()).step (State.initial Unit ℕ ℕ)
    s.phase 1 = .running ∧ s.phase 2 = .running ∧ s.now < s.createdAt 1 + dedupTimeout ∧
      s.now < s.createdAt 2 + dedupTimeout ∧
      ¬Along (calls fun _ => ()).step
        (fun s a => Enabled (fun _ => ()) s a → Exclusive (fun _ => ()) s a)
        (State.initial Unit ℕ ℕ) removedByOther := by
  refine ⟨by decide, by decide, by decide, by decide, fun h => ?_⟩
  have hsplit : Along (calls fun _ => ()).step
      (fun s a => Enabled (fun _ => ()) s a → Exclusive (fun _ => ()) s a)
      (State.initial Unit ℕ ℕ) (removedByOther.take 11 ++ removedByOther.drop 11) := h
  have hremove := ((along_append.mp hsplit).2.1 (by decide)).remove 0 7 rfl (1, dedupTimeout)
    (by decide)
  exact absurd hremove (by decide)

end Known

end RequestDedup

end ForgeIndex
