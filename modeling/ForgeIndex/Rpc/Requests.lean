import Mathlib.Data.Fintype.Basic
import ForgeIndex.Lib.Along
import ForgeIndex.Rpc.RateLimiter
import ForgeIndex.Rpc.Receipts

/-!
# Requests of the RPC client

`RateLimiter::acquire`, `retry::with_retry` and the body that the methods of `RpcClient` in
`forge-index-rpc/src/client.rs` make of them: a token, and then the attempts.  Any number of calls
run at the same time, as actions of single calls in any order.  What the node answers to an attempt
and how long is waited before the next one are parameters.
-/

namespace ForgeIndex

namespace RpcRequests

def maxRetries : ℕ := 4

/-- Where a call stands. -/
inductive Phase (α : Type) where
  | idle
  /-- In the loop of `acquire`, asleep until then. -/
  | acquiring (wake : ℚ)
  /-- So many attempts have failed, and the next one is due then. -/
  | waiting (failed : ℕ) (wake : ℚ)
  | inFlight (failed : ℕ)
  | finished (result : Except RpcError α)
  | panicked
  deriving DecidableEq

/-- The limiter, the calls, and what is noted of a run: the tokens granted, and the requests sent to
the node with the number of the attempt. -/
structure State (T α : Type) where
  now : ℚ
  bucket : TokenBucket
  phase : T → Phase α
  granted : List (T × ℚ)
  sent : List (T × ℕ × ℚ)

/-- A new client. -/
def State.initial (T α : Type) (maxRps : UInt32) (start : ℚ) : State T α where
  now := start
  bucket := TokenBucket.new maxRps start
  phase _ := .idle
  granted := []
  sent := []

/-- One action of a call, or of the clock.  Under its lock `acquire` reads the clock a second time
when it finds no token. -/
inductive Action (T : Type) where
  | tick (elapsed : ℚ)
  | call (t : T)
  | tryAcquire (t : T) (wake between : ℚ)
  | send (t : T) (failed : ℕ) (wake : ℚ)
  | receive (t : T) (failed : ℕ)

section System

variable {T α : Type} [DecidableEq T] (method : T → String) (answer : T → ℕ → Except RpcError α)
  (delay : T → ℕ → ℚ)

/-- The call has come to the action. -/
def Enabled (s : State T α) : Action T → Prop
  | .tick elapsed => 0 ≤ elapsed
  | .call t => s.phase t = .idle
  | .tryAcquire t wake between => s.phase t = .acquiring wake ∧ wake ≤ s.now ∧ 0 ≤ between
  | .send t failed wake => s.phase t = .waiting failed wake ∧ wake ≤ s.now
  | .receive t failed => s.phase t = .inFlight failed

instance [DecidableEq α] (s : State T α) : (a : Action T) → Decidable (Enabled s a)
  | .tick _ => inferInstanceAs (Decidable (_ ≤ _))
  | .call _ | .receive _ _ => inferInstanceAs (Decidable (_ = _))
  | .tryAcquire _ _ _ => inferInstanceAs (Decidable (_ ∧ _ ∧ _))
  | .send _ _ _ => inferInstanceAs (Decidable (_ ∧ _))

/-- The call goes on to a phase. -/
def State.goTo (s : State T α) (t : T) (p : Phase α) : State T α :=
  { s with phase := Function.update s.phase t p }

/-- The body of the loop of `acquire`. -/
def tryAcquire (s : State T α) (t : T) (between : ℚ) : State T α :=
  let taken := s.bucket.tryTake s.now
  if taken.1 then
    { s.goTo t (.waiting 0 s.now) with
      bucket := taken.2
      granted := s.granted ++ [(t, s.now)] }
  else
    let later := s.now + between
    let wait := taken.2.timeUntilAvailable later
    { s.goTo t (match wait.1 with
        | some d => .acquiring (later + d)
        | none => .panicked) with
      now := later
      bucket := wait.2 }

/-- What `with_retry` does with the answer to an attempt. -/
def afterAnswer (t : T) (failed : ℕ) (now : ℚ) : Phase α :=
  match answer t failed with
  | .ok v => .finished (.ok v)
  | .error e =>
    if e.isRetryable then
      if failed < maxRetries then .waiting (failed + 1) (now + delay t failed)
      else .finished (.error (.maxRetriesExceeded (method t) 5))
    else .finished (.error e)

/-- What the action does. -/
def effect (s : State T α) : Action T → State T α
  | .tick elapsed => { s with now := s.now + elapsed }
  | .call t => s.goTo t (.acquiring s.now)
  | .tryAcquire t _ between => tryAcquire s t between
  | .send t failed _ => { s.goTo t (.inFlight failed) with sent := s.sent ++ [(t, failed, s.now)] }
  | .receive t failed => s.goTo t (afterAnswer method answer delay t failed s.now)

/-- Any number of calls of the methods of one client. -/
def calls [DecidableEq α] : Guarded (State T α) (Action T) :=
  ⟨Enabled, fun _ _ => inferInstance, effect method answer delay⟩

/-- A run of a new client. -/
def run [DecidableEq α] (maxRps : UInt32) (start : ℚ) (actions : List (Action T)) : State T α :=
  actions.foldl (calls method answer delay).step (State.initial T α maxRps start)

/-- The token is granted. -/
def State.grant (s : State T α) (t : T) : State T α :=
  { s.goTo t (.waiting 0 s.now) with
    bucket := (s.bucket.refill s.now).spend
    granted := s.granted ++ [(t, s.now)] }

/-- There was no token, and the clock was read again later. -/
def State.refuse (s : State T α) (t : T) (later : ℚ) (p : Phase α) : State T α :=
  { s.goTo t p with now := later, bucket := (s.bucket.refill s.now).refill later }

/-- What `acquire` does when it comes to its turn. -/
inductive Turn (s : State T α) (t : T) : State T α → Prop
  | granted (htoken : 1 ≤ (s.bucket.refill s.now).tokens) : Turn s t (s.grant t)
  | asleep {later wait : ℚ} (hnone : ¬1 ≤ (s.bucket.refill s.now).tokens) (hlater : s.now ≤ later)
      (hwait : ((s.bucket.refill s.now).timeUntilAvailable later).1 = some wait) :
      Turn s t (s.refuse t later (.acquiring (later + wait)))
  | panicked {later : ℚ} (hnone : ¬1 ≤ (s.bucket.refill s.now).tokens) (hlater : s.now ≤ later)
      (hwait : ((s.bucket.refill s.now).timeUntilAvailable later).1 = none) :
      Turn s t (s.refuse t later .panicked)

variable {method answer delay}

theorem turn_tryAcquire (s : State T α) (t : T) {between : ℚ} (h : 0 ≤ between) :
    Turn s t (tryAcquire s t between) := by
  have hlater : s.now ≤ s.now + between := le_add_of_nonneg_right h
  unfold tryAcquire TokenBucket.tryTake
  by_cases htoken : 1 ≤ (s.bucket.refill s.now).tokens
  · rw [if_pos htoken]
    exact .granted htoken
  · rw [if_neg htoken]
    dsimp only
    rw [if_neg Bool.false_ne_true, TokenBucket.timeUntilAvailable_snd]
    cases hwait : ((s.bucket.refill s.now).timeUntilAvailable (s.now + between)).1 with
    | some wait => exact .asleep htoken hlater hwait
    | none => exact .panicked htoken hlater hwait

end System

section Tokens

variable {T α : Type}

/-- How many tokens were granted from a time on. -/
def grantedFrom (t₁ : ℚ) (granted : List (T × ℚ)) : ℕ :=
  (granted.filter fun g => decide (t₁ ≤ g.2)).length

/-- How many tokens were granted in a window. -/
def grantedIn (t₁ t₂ : ℚ) (granted : List (T × ℚ)) : ℕ :=
  (granted.filter fun g => decide (t₁ ≤ g.2) && decide (g.2 ≤ t₂)).length

/-- The tokens of a limiter with `m` requests in a second that began to run at a time: those left,
and those granted. -/
structure Ledger (m start : ℚ) (b : TokenBucket) (granted : List (T × ℚ)) : Prop where
  bucket : b.Sound m
  began : start ≤ b.lastRefill
  granted_le : ∀ g ∈ granted, start ≤ g.2 ∧ g.2 ≤ b.lastRefill
  ordered : granted.Pairwise fun g g' => g.2 ≤ g'.2
  paid : ∀ t₁, Refill.Paid m m t₁ (grantedFrom t₁ granted) b.level
  window : ∀ t₁ t₂, t₁ ≤ t₂ → (grantedIn t₁ t₂ granted : ℚ) ≤ m + m * (t₂ - t₁)

theorem grantedIn_le_grantedFrom (t₁ t₂ : ℚ) (granted : List (T × ℚ)) :
    grantedIn t₁ t₂ granted ≤ grantedFrom t₁ granted := by
  apply List.Sublist.length_le
  apply List.monotone_filter_right
  intro g hg
  exact (Bool.and_eq_true_iff.mp hg).1

variable {m start : ℚ} {b : TokenBucket} {granted : List (T × ℚ)}

theorem ledger_new (maxRps : UInt32) (start : ℚ) :
    Ledger (T := T) maxRps.toNat start (TokenBucket.new maxRps start) [] where
  bucket := TokenBucket.new_sound maxRps start
  began := le_refl start
  granted_le _ h := absurd h List.not_mem_nil
  ordered := List.Pairwise.nil
  paid t₁ := Refill.paid_none (TokenBucket.new_sound maxRps start).within (Nat.cast_nonneg _) t₁
  window t₁ t₂ h := by
    have hm : (0 : ℚ) ≤ maxRps.toNat := Nat.cast_nonneg _
    have hflow := mul_nonneg hm (sub_nonneg.mpr h)
    simpa [grantedIn] using add_nonneg hm hflow

theorem Ledger.refill (hm : 0 ≤ m) (h : Ledger m start b granted) {t : ℚ} (ht : b.lastRefill ≤ t) :
    Ledger m start (b.refill t) granted where
  bucket := TokenBucket.refill_sound hm h.bucket t
  began := h.began.trans ht
  granted_le g hg := ⟨(h.granted_le g hg).1, (h.granted_le g hg).2.trans ht⟩
  ordered := h.ordered
  paid t₁ := by
    rw [TokenBucket.refill_level h.bucket]
    apply (h.paid t₁).refill hm ht
    -- no token has been granted after the last time the bucket was touched
    intro hlast
    unfold grantedFrom
    rw [List.length_eq_zero_iff, List.filter_eq_nil_iff]
    intro g hg hle
    exact absurd (of_decide_eq_true hle) (not_le.mpr ((h.granted_le g hg).2.trans_lt hlast))
  window := h.window

theorem Ledger.grant (hm : 0 ≤ m) (h : Ledger m start b granted) (htoken : 1 ≤ b.tokens) (t : T) :
    Ledger m start b.spend (granted ++ [(t, b.lastRefill)]) := by
  have hpaid (t₁ : ℚ) :
      Refill.Paid m m t₁ (grantedFrom t₁ (granted ++ [(t, b.lastRefill)])) b.spend.level := by
    unfold grantedFrom
    rw [List.filter_append, List.length_append]
    by_cases hin : t₁ ≤ b.lastRefill
    · rw [List.filter_cons_of_pos (by simpa using hin)]
      exact (h.paid t₁).grant
    · rw [List.filter_cons_of_neg (by simpa using hin)]
      exact (h.paid t₁).early
  have hsound := TokenBucket.spend_sound h.bucket htoken
  refine ⟨hsound, h.began, ?_, ?_, hpaid, ?_⟩
  · intro g hg
    rcases List.mem_append.mp hg with hold | hnew
    · exact h.granted_le g hold
    · rw [List.mem_singleton.mp hnew]
      exact ⟨h.began, le_refl _⟩
  · apply List.pairwise_append.mpr
    refine ⟨h.ordered, List.pairwise_singleton _ _, ?_⟩
    intro g hg g' hg'
    rw [List.mem_singleton.mp hg']
    exact (h.granted_le g hg).2
  · intro t₁ t₂ hwindow
    by_cases hin : t₁ ≤ b.lastRefill ∧ b.lastRefill ≤ t₂
    · -- what the window holds has been granted until now
      have hall : (grantedIn t₁ t₂ (granted ++ [(t, b.lastRefill)]) : ℚ) ≤
          grantedFrom t₁ (granted ++ [(t, b.lastRefill)]) :=
        Nat.cast_le.mpr (grantedIn_le_grantedFrom t₁ t₂ _)
      have huntil := (hpaid t₁).le hsound.within hin.1
      have hlater : m * (b.lastRefill - t₁) ≤ m * (t₂ - t₁) :=
        mul_le_mul_of_nonneg_left (sub_le_sub_right hin.2 t₁) hm
      exact hall.trans (huntil.trans (add_le_add_right hlater m))
    · have hout : (decide (t₁ ≤ b.lastRefill) && decide (b.lastRefill ≤ t₂)) = false := by
        rw [Bool.and_eq_false_iff, decide_eq_false_iff_not, decide_eq_false_iff_not]
        exact not_and_or.mp hin
      have hsame : grantedIn t₁ t₂ (granted ++ [(t, b.lastRefill)]) = grantedIn t₁ t₂ granted := by
        unfold grantedIn
        rw [List.filter_append, List.filter_cons_of_neg (by simp [hout]), List.filter_nil,
          List.append_nil]
      rw [hsame]
      exact h.window t₁ t₂ hwindow

/-- Up to the k-th token, counted from none, there were as many as a full bucket and what flowed in
since the start allow. -/
theorem Ledger.le_of_getElem? (h : Ledger m start b granted) {k : ℕ} {g : T × ℚ}
    (hg : granted[k]? = some g) : (k + 1 : ℚ) ≤ m + m * (g.2 - start) := by
  obtain ⟨hk, hgk⟩ := List.getElem?_eq_some_iff.mp hg
  have hmem : g ∈ granted := hgk ▸ List.getElem_mem hk
  have hcount : k + 1 ≤ grantedIn start g.2 granted := by
    have hfirst : ((granted.take (k + 1)).filter fun g' =>
        decide (start ≤ g'.2) && decide (g'.2 ≤ g.2)) = granted.take (k + 1) := by
      rw [List.filter_eq_self]
      intro g' hg'
      obtain ⟨j, hj, hgj⟩ := List.mem_take_iff_getElem.mp hg'
      have hstart := (h.granted_le g' (List.mem_of_mem_take hg')).1
      have hle : g'.2 ≤ g.2 := by
        rw [← hgj, ← hgk]
        rcases Nat.lt_or_ge j k with hlt | hge
        · exact List.pairwise_iff_getElem.mp h.ordered j k _ hk hlt
        · have hjk : j = k := by omega
          subst hjk
          exact le_refl _
      rw [decide_eq_true hstart, decide_eq_true hle]
      rfl
    have hlength : (granted.take (k + 1)).length = k + 1 := by
      rw [List.length_take]
      omega
    have hsub := ((List.take_sublist (k + 1) granted).filter fun g' =>
      decide (start ≤ g'.2) && decide (g'.2 ≤ g.2)).length_le
    rw [hfirst, hlength] at hsub
    exact hsub
  have hcast : ((k + 1 : ℕ) : ℚ) ≤ grantedIn start g.2 granted := Nat.cast_le.mpr hcount
  push_cast at hcast
  exact hcast.trans (h.window start g.2 (h.granted_le g hmem).1)

end Tokens

section Limiter

variable {T α : Type} [DecidableEq T] {method : T → String} {answer : T → ℕ → Except RpcError α}
  {delay : T → ℕ → ℚ} {m start : ℚ} {s s' : State T α} {t : T}

/-- The limiter keeps its account, and the clock is never behind the bucket. -/
structure Metered (m start : ℚ) (s : State T α) : Prop where
  ledger : Ledger m start s.bucket s.granted
  clock : s.bucket.lastRefill ≤ s.now

theorem Metered.turn (hm : 0 ≤ m) (h : Metered m start s) (hturn : Turn s t s') :
    Metered m start s' := by
  have hnow := h.ledger.refill hm h.clock
  cases hturn with
  | granted htoken => exact ⟨hnow.grant hm htoken t, le_refl s.now⟩
  | asleep hnone hlater hwait => exact ⟨hnow.refill hm hlater, le_refl _⟩
  | panicked hnone hlater hwait => exact ⟨hnow.refill hm hlater, le_refl _⟩

theorem Metered.effect (hm : 0 ≤ m) (h : Metered m start s) {a : Action T} (he : Enabled s a) :
    Metered m start (effect method answer delay s a) := by
  cases a with
  | tick elapsed => exact ⟨h.ledger, h.clock.trans (le_add_of_nonneg_right he)⟩
  | call t => exact ⟨h.ledger, h.clock⟩
  | tryAcquire t wake between => exact h.turn hm (turn_tryAcquire s t he.2.2)
  | send t failed wake => exact ⟨h.ledger, h.clock⟩
  | receive t failed => exact ⟨h.ledger, h.clock⟩

theorem Turn.grows (hturn : Turn s t s') : s.granted <+: s'.granted := by
  cases hturn with
  | granted htoken => exact List.prefix_append _ _
  | asleep hnone hlater hwait => exact List.prefix_rfl
  | panicked hnone hlater hwait => exact List.prefix_rfl

theorem Turn.fill_le (hm : 0 ≤ m) (h : Metered m start s) (hturn : Turn s t s')
    (hsame : s'.granted = s.granted) (u : ℚ) :
    Refill.fill m m s.bucket.level u ≤ Refill.fill m m s'.bucket.level u := by
  have hrefused {later : ℚ} (hlater : s.now ≤ later) : Refill.fill m m s.bucket.level u ≤
      Refill.fill m m ((s.bucket.refill s.now).refill later).level u := by
    have hnow := TokenBucket.refill_sound hm h.ledger.bucket s.now
    rw [TokenBucket.refill_level hnow, TokenBucket.refill_level h.ledger.bucket]
    exact (Refill.fill_le_fill_refill hm h.clock u).trans
      (Refill.fill_le_fill_refill hm hlater u)
  cases hturn with
  | granted htoken => exact absurd hsame (by simp [State.grant])
  | asleep hnone hlater hwait => exact hrefused hlater
  | panicked hnone hlater hwait => exact hrefused hlater

theorem granted_prefix_effect {a : Action T} (he : Enabled s a) :
    s.granted <+: (effect method answer delay s a).granted := by
  cases a with
  | tryAcquire t wake between => exact (turn_tryAcquire s t he.2.2).grows
  | tick | call | send | receive => exact List.prefix_rfl

theorem fill_le_effect (hm : 0 ≤ m) (h : Metered m start s) {a : Action T} (he : Enabled s a)
    (hsame : (effect method answer delay s a).granted = s.granted) (u : ℚ) :
    Refill.fill m m s.bucket.level u ≤
      Refill.fill m m (effect method answer delay s a).bucket.level u := by
  cases a with
  | tryAcquire t wake between => exact (turn_tryAcquire s t he.2.2).fill_le hm h hsame u
  | tick | call | send | receive => exact le_refl _

theorem Turn.fill_wake (hm : 1 ≤ m) (h : Metered m start s) (hturn : Turn s t s') {wake : ℚ}
    (hasleep : s'.phase t = .acquiring wake) :
    s'.granted = s.granted ∧ 1 ≤ Refill.fill m m s'.bucket.level wake := by
  cases hturn with
  | granted htoken =>
    rw [show (s.grant t).phase t = .waiting 0 s.now from Function.update_self _ _ _] at hasleep
    cases hasleep
  | @asleep later wait hnone hlater hwait =>
    rw [show (s.refuse t later (.acquiring (later + wait))).phase t = .acquiring (later + wait)
      from Function.update_self _ _ _] at hasleep
    cases hasleep
    have hnow := TokenBucket.refill_sound (zero_le_one.trans hm) h.ledger.bucket s.now
    exact ⟨rfl, (TokenBucket.fill_timeUntilAvailable hm hnow hwait).2⟩
  | @panicked later hnone hlater hwait =>
    rw [show (s.refuse t later .panicked).phase t = .panicked
      from Function.update_self _ _ _] at hasleep
    cases hasleep

theorem Turn.eq_grant (h : Metered m start s) (hturn : Turn s t s')
    (htoken : 1 ≤ Refill.fill m m s.bucket.level s.now) : s' = s.grant t := by
  rw [← TokenBucket.refill_tokens h.ledger.bucket] at htoken
  cases hturn with
  | granted _ => rfl
  | asleep hnone _ _ => exact absurd htoken hnone
  | panicked hnone _ _ => exact absurd htoken hnone

variable [DecidableEq α]

theorem Metered.step (hm : 0 ≤ m) (h : Metered m start s) (a : Action T) :
    Metered m start ((calls method answer delay).step s a) :=
  Guarded.step_preserves h fun he => h.effect hm he

theorem metered_foldl (hm : 0 ≤ m) (h : Metered m start s) (actions : List (Action T)) :
    Metered m start (actions.foldl (calls method answer delay).step s) := by
  induction actions generalizing s with
  | nil => exact h
  | cons a as ih => exact ih (h.step hm a)

theorem metered_run (maxRps : UInt32) (start : ℚ) (actions : List (Action T)) :
    Metered maxRps.toNat start (run method answer delay maxRps start actions) :=
  metered_foldl (Nat.cast_nonneg _) ⟨ledger_new maxRps start, le_refl start⟩ actions

theorem granted_prefix_step (s : State T α) (a : Action T) :
    s.granted <+: ((calls method answer delay).step s a).granted :=
  Guarded.step_preserves (I := fun u : State T α => s.granted <+: u.granted) List.prefix_rfl
    granted_prefix_effect

theorem granted_prefix_foldl (s : State T α) (actions : List (Action T)) :
    s.granted <+: (actions.foldl (calls method answer delay).step s).granted := by
  induction actions generalizing s with
  | nil => exact List.prefix_rfl
  | cons a as ih => exact (granted_prefix_step s a).trans (ih _)

/-- While nothing is granted, what the bucket holds at a time does not get less. -/
theorem fill_le_foldl (hm : 0 ≤ m) (h : Metered m start s) {actions : List (Action T)}
    (hsame : (actions.foldl (calls method answer delay).step s).granted = s.granted) (u : ℚ) :
    Refill.fill m m s.bucket.level u ≤
      Refill.fill m m (actions.foldl (calls method answer delay).step s).bucket.level u := by
  induction actions generalizing s with
  | nil => exact le_refl _
  | cons a as ih =>
    have hfirst : s.granted <+: ((calls method answer delay).step s a).granted :=
      granted_prefix_step s a
    have hrest : ((calls method answer delay).step s a).granted <+:
        (as.foldl (calls method answer delay).step
          ((calls method answer delay).step s a)).granted :=
      granted_prefix_foldl ((calls method answer delay).step s a) as
    have hlast : (as.foldl (calls method answer delay).step
        ((calls method answer delay).step s a)).granted = s.granted := hsame
    have hstep : ((calls method answer delay).step s a).granted = s.granted := by
      rw [hlast] at hrest
      exact (hfirst.eq_of_length_le hrest.length_le).symm
    have hnext := ih (h.step hm a) (hlast.trans hstep.symm)
    refine le_trans ?_ hnext
    by_cases he : Enabled s a
    · rw [Guarded.step_of_enabled (g := calls method answer delay) he] at hstep ⊢
      exact fill_le_effect hm h he hstep u
    · rw [Guarded.step_of_not_enabled (g := calls method answer delay) he]

/-- In every run the bucket holds between none and `m` tokens, every window grants at most `m` and
`m` for each of its seconds, and the k-th token, counted from none, is not granted before the first
`k + 1` can have flowed in. -/
theorem acquire_every_window (maxRps : UInt32) (start : ℚ) (actions : List (Action T)) :
    let s := run method answer delay maxRps start actions
    (0 ≤ s.bucket.tokens ∧ s.bucket.tokens ≤ maxRps.toNat) ∧
    (∀ t₁ t₂, t₁ ≤ t₂ →
      (grantedIn t₁ t₂ s.granted : ℚ) ≤ maxRps.toNat + maxRps.toNat * (t₂ - t₁)) ∧
    ∀ (k : ℕ) (g : T × ℚ), s.granted[k]? = some g →
      (k + 1 : ℚ) ≤ maxRps.toNat + maxRps.toNat * (g.2 - start) := by
  intro s
  have hs : Metered maxRps.toNat start (run method answer delay maxRps start actions) :=
    metered_run maxRps start actions
  refine ⟨⟨hs.ledger.bucket.within.nonneg, hs.ledger.bucket.within.le_capacity⟩,
    hs.ledger.window, ?_⟩
  intro k g hg
  exact hs.ledger.le_of_getElem? hg

theorem run_append (maxRps : UInt32) (start : ℚ) (before later : List (Action T)) :
    run method answer delay maxRps start (before ++ later) =
      later.foldl (calls method answer delay).step
        (run method answer delay maxRps start before) := List.foldl_append

theorem step_tryAcquire {s : State T α} {t : T} {wake pause : ℚ}
    (h : Enabled s (.tryAcquire t wake pause)) :
    (calls method answer delay).step s (.tryAcquire t wake pause) = tryAcquire s t pause :=
  Guarded.step_of_enabled (g := calls method answer delay) h

/-- The bucket of a call that sleeps has a token for it when it wakes, unless one was granted. -/
theorem Metered.woken (hm : 1 ≤ m) (h : Metered m start s) {wake pause wake' pause' : ℚ}
    (hfirst : Enabled s (.tryAcquire t wake pause))
    (hasleep : (tryAcquire s t pause).phase t = .acquiring wake') {between : List (Action T)}
    (hs' : between.foldl (calls method answer delay).step (tryAcquire s t pause) = s')
    (hsecond : Enabled s' (.tryAcquire t wake' pause')) (hsame : s'.granted = s.granted) :
    tryAcquire s' t pause' = s'.grant t := by
  have hpos : 0 ≤ m := zero_le_one.trans hm
  have hturn := turn_tryAcquire s t hfirst.2.2
  have hslept := h.turn hpos hturn
  obtain ⟨hnone, hfull⟩ := hturn.fill_wake hm h hasleep
  have hwoken : Metered m start s' := hs' ▸ metered_foldl hpos hslept between
  apply (turn_tryAcquire s' t hsecond.2.2).eq_grant hwoken
  calc (1 : ℚ) ≤ Refill.fill m m (tryAcquire s t pause).bucket.level wake' := hfull
    _ ≤ Refill.fill m m s'.bucket.level wake' := by
      subst hs'
      exact fill_le_foldl hpos hslept (hsame.trans hnone.symm) wake'
    _ ≤ Refill.fill m m s'.bucket.level s'.now := Refill.fill_mono hpos hsecond.2.1

/-- A call that found no token and slept for the time it was given finds one when it wakes, unless
tokens have been granted since. -/
theorem woken_finds_token {maxRps : UInt32} (hm : 1 ≤ maxRps) (start : ℚ)
    (before between : List (Action T)) {t : T} {wake pause wake' pause' : ℚ}
    (hfirst : Enabled (run method answer delay maxRps start before) (.tryAcquire t wake pause))
    (hasleep : (run method answer delay maxRps start
      (before ++ [.tryAcquire t wake pause])).phase t = .acquiring wake')
    (hsecond : Enabled (run method answer delay maxRps start
      (before ++ .tryAcquire t wake pause :: between)) (.tryAcquire t wake' pause'))
    (hsame : (run method answer delay maxRps start
      (before ++ .tryAcquire t wake pause :: between)).granted =
        (run method answer delay maxRps start before).granted) :
    run method answer delay maxRps start
        (before ++ .tryAcquire t wake pause :: (between ++ [.tryAcquire t wake' pause'])) =
      (run method answer delay maxRps start
        (before ++ .tryAcquire t wake pause :: between)).grant t := by
  have hrate : (1 : ℚ) ≤ maxRps.toNat := by
    have hnat := UInt32.le_iff_toNat_le.mp hm
    exact_mod_cast hnat
  have hbefore : Metered maxRps.toNat start (run method answer delay maxRps start before) :=
    metered_run maxRps start before
  have hlast : run method answer delay maxRps start
        (before ++ .tryAcquire t wake pause :: (between ++ [.tryAcquire t wake' pause'])) =
      (calls method answer delay).step (run method answer delay maxRps start
        (before ++ .tryAcquire t wake pause :: between)) (.tryAcquire t wake' pause') := by
    rw [show before ++ .tryAcquire t wake pause :: (between ++ [.tryAcquire t wake' pause']) =
      (before ++ .tryAcquire t wake pause :: between) ++ [.tryAcquire t wake' pause'] by simp,
      run_append]
    rfl
  rw [run_append] at hasleep
  rw [hlast, step_tryAcquire hsecond]
  have hmiddle : run method answer delay maxRps start
        (before ++ .tryAcquire t wake pause :: between) =
      between.foldl (calls method answer delay).step
        (tryAcquire (run method answer delay maxRps start before) t pause) := by
    rw [run_append, List.foldl_cons, step_tryAcquire hfirst]
  rw [List.foldl_cons, List.foldl_nil, step_tryAcquire hfirst] at hasleep
  exact hbefore.woken hrate hfirst hasleep hmiddle.symm hsecond hsame

/-- Two calls of a client with one request in a second: the second one waits for a second. -/
theorem woken_finds_token_second :
    let calling (actions : List (Action Bool)) : State Bool ℕ :=
      run (fun _ => "eth_blockNumber") (fun _ _ => .ok 7) (fun _ _ => 1) 1 0 actions
    calling ([.call false, .call true, .tryAcquire false 0 0] ++ .tryAcquire true 0 0 ::
        ([.tick 1] ++ [.tryAcquire true 1 0])) =
      (calling ([.call false, .call true, .tryAcquire false 0 0] ++ .tryAcquire true 0 0 ::
        [.tick 1])).grant true :=
  woken_finds_token (by decide) 0 _ _ (by decide +kernel) (by decide +kernel) (by decide +kernel)
    (by decide +kernel)

end Limiter

end RpcRequests

end ForgeIndex
