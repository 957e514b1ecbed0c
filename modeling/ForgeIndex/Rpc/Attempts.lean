import Mathlib.Data.List.ProdSigma
import ForgeIndex.Rpc.Requests

/-!
# The attempts of a request

What the calls of one client have sent to the node and what they return, in every run: the loop of
`with_retry`, step by step, against the function that it computes.
-/

namespace ForgeIndex

namespace RpcClient

variable {α : Type}

/-- An answer that `with_retry` tries again. -/
def Retryable (x : Except RpcError α) : Prop := ∃ e, x = .error e ∧ e.isRetryable = true

theorem attemptFrom_skip {method : String} {ask : ℕ → Except RpcError α} {n k left : ℕ}
    (h : ∀ j < k, Retryable (ask (n + j))) :
    attemptFrom method ask n (k + left) = attemptFrom method ask (n + k) left := by
  induction k generalizing n with
  | zero => rw [Nat.zero_add, Nat.add_zero]
  | succ k ih =>
    obtain ⟨e, he, hretry⟩ := h 0 (Nat.succ_pos k)
    have hrest : ∀ j < k, Retryable (ask (n + 1 + j)) := by
      intro j hj
      have hnext := h (j + 1) (by omega)
      rwa [show n + (j + 1) = n + 1 + j by omega] at hnext
    rw [Nat.add_zero] at he
    rw [show k + 1 + left = k + left + 1 by omega, attemptFrom, he]
    dsimp only
    rw [if_pos hretry, ih hrest, show n + 1 + k = n + (k + 1) by omega]

theorem withRetry_of_settled {method : String} {ask : ℕ → Except RpcError α} {n : ℕ} (hn : n ≤ 4)
    (hbefore : ∀ k < n, Retryable (ask k)) (hlast : ¬Retryable (ask n)) :
    withRetry method ask = ask n := by
  have hskip : withRetry method ask = attemptFrom method ask (0 + n) (4 - n + 1) := by
    unfold withRetry
    rw [show 5 = n + (4 - n + 1) by omega]
    apply attemptFrom_skip
    intro j hj
    rw [Nat.zero_add]
    exact hbefore j hj
  rw [hskip, Nat.zero_add, attemptFrom]
  cases hanswer : ask n with
  | ok v => rfl
  | error e =>
    have hretry : ¬e.isRetryable = true := fun h => hlast ⟨e, hanswer, h⟩
    dsimp only
    rw [if_neg hretry]

theorem withRetry_of_exhausted {method : String} {ask : ℕ → Except RpcError α}
    (h : ∀ k < 5, Retryable (ask k)) :
    withRetry method ask = .error (.maxRetriesExceeded method 5) := by
  unfold withRetry
  have hskip := @attemptFrom_skip α method ask 0 5 0 (by simpa using h)
  rw [hskip]
  rfl

end RpcClient

namespace RpcRequests

open RpcClient (Retryable)

section Calls

variable {T α : Type} [DecidableEq T] {method : T → String} {answer : T → ℕ → Except RpcError α}
  {delay : T → ℕ → ℚ} {s s' : State T α} {t u : T}

/-- The numbers of the attempts that a call has made, in order. -/
def State.attempts (s : State T α) (t : T) : List ℕ :=
  (s.sent.filter fun x => x.1 = t).map fun x => x.2.1

/-- How many tokens a call has been granted. -/
def State.tokensOf (s : State T α) (t : T) : ℕ := (s.granted.map Prod.fst).count t

/-- The attempts until this one have failed and were tried again. -/
def Failing (answer : T → ℕ → Except RpcError α) (t : T) (failed : ℕ) : Prop :=
  failed ≤ maxRetries ∧ ∀ k < failed, Retryable (answer t k)

/-- What is known of a call that stands in a phase. -/
def KnownAt (method : T → String) (answer : T → ℕ → Except RpcError α) (delay : T → ℕ → ℚ)
    (s : State T α) (t : T) : Phase α → Prop
  | .idle | .acquiring _ | .panicked => s.attempts t = [] ∧ s.tokensOf t = 0
  | .waiting failed wake => s.attempts t = List.range failed ∧ s.tokensOf t = 1 ∧
      Failing answer t failed ∧
      ∀ k, failed = k + 1 → ∃ time, (t, k, time) ∈ s.sent ∧ time + delay t k ≤ wake
  | .inFlight failed => s.attempts t = List.range (failed + 1) ∧ s.tokensOf t = 1 ∧
      Failing answer t failed
  | .finished result => s.tokensOf t = 1 ∧ result = RpcClient.withRetry (method t) (answer t) ∧
      ∃ last ≤ maxRetries, s.attempts t = List.range (last + 1) ∧
        (∀ k < last, Retryable (answer t k)) ∧
        (last < maxRetries → ¬Retryable (answer t last))

/-- What is known of all calls, and of what was sent. -/
structure Followed (method : T → String) (answer : T → ℕ → Except RpcError α) (delay : T → ℕ → ℚ)
    (s : State T α) : Prop where
  call : ∀ t, KnownAt method answer delay s t (s.phase t)
  sent_le : ∀ x ∈ s.sent, x.2.2 ≤ s.now
  spaced : ∀ t k time, (t, k + 1, time) ∈ s.sent →
    ∃ time', (t, k, time') ∈ s.sent ∧ time' + delay t k ≤ time

/-- What an action leaves as it is for a call that does not take it. -/
structure Frame (s s' : State T α) (u : T) : Prop where
  phase : s'.phase u = s.phase u
  attempts : s'.attempts u = s.attempts u
  tokensOf : s'.tokensOf u = s.tokensOf u
  sent : s.sent ⊆ s'.sent

theorem KnownAt.mono {p : Phase α} (h : KnownAt method answer delay s u p)
    (hattempts : s'.attempts u = s.attempts u) (htokens : s'.tokensOf u = s.tokensOf u)
    (hsent : s.sent ⊆ s'.sent) : KnownAt method answer delay s' u p := by
  unfold KnownAt at h ⊢
  rw [hattempts, htokens]
  cases p with
  | waiting failed wake =>
    obtain ⟨hrange, htoken, hfailing, hspaced⟩ := h
    refine ⟨hrange, htoken, hfailing, fun k hk => ?_⟩
    obtain ⟨time, hbefore, hle⟩ := hspaced k hk
    exact ⟨time, hsent hbefore, hle⟩
  | idle | acquiring | inFlight | finished | panicked => exact h

theorem KnownAt.of_frame (h : KnownAt method answer delay s u (s.phase u)) (hframe : Frame s s' u) :
    KnownAt method answer delay s' u (s'.phase u) := by
  rw [hframe.phase]
  exact h.mono hframe.attempts hframe.tokensOf hframe.sent

theorem Frame.of_goTo {p : Phase α} (hu : u ≠ t) (hphase : s'.phase = (s.goTo t p).phase)
    (hsent : s'.sent = s.sent) (hgranted : s'.granted = s.granted) : Frame s s' u where
  phase := by
    rw [hphase]
    exact Function.update_of_ne hu _ _
  attempts := by
    unfold State.attempts
    rw [hsent]
  tokensOf := by
    unfold State.tokensOf
    rw [hgranted]
  sent := by
    rw [hsent]
    exact List.Subset.refl _

theorem attempts_send_self (s : State T α) (t : T) (failed : ℕ) (p : Phase α) (time : ℚ) :
    State.attempts { s.goTo t p with sent := s.sent ++ [(t, failed, time)] } t =
      s.attempts t ++ [failed] := by
  unfold State.attempts State.goTo
  rw [List.filter_append, List.map_append, List.filter_cons_of_pos (by simp)]
  rfl

theorem attempts_send_other (s : State T α) {t u : T} (hu : u ≠ t) (failed : ℕ) (p : Phase α)
    (time : ℚ) :
    State.attempts { s.goTo t p with sent := s.sent ++ [(t, failed, time)] } u = s.attempts u := by
  unfold State.attempts State.goTo
  rw [List.filter_append, List.filter_cons_of_neg (by simpa using hu.symm), List.filter_nil,
    List.append_nil]

theorem tokensOf_grant (s : State T α) (t u : T) :
    (s.grant t).tokensOf u = s.tokensOf u + if u = t then 1 else 0 := by
  unfold State.tokensOf State.grant
  rw [List.map_append, List.count_append, List.map_singleton, List.count_singleton]
  by_cases hu : u = t
  · rw [if_pos hu, if_pos (beq_iff_eq.mpr hu.symm)]
  · rw [if_neg hu, if_neg fun h => hu (beq_iff_eq.mp h).symm]

theorem Frame.turn (hu : u ≠ t) (hturn : Turn s t s') : Frame s s' u := by
  cases hturn with
  | granted htoken =>
    refine ⟨Function.update_of_ne hu _ _, rfl, ?_, List.Subset.refl _⟩
    rw [tokensOf_grant, if_neg hu, Nat.add_zero]
  | asleep hnone hlater hwait => exact Frame.of_goTo hu rfl rfl rfl
  | panicked hnone hlater hwait => exact Frame.of_goTo hu rfl rfl rfl

/-- The call of an action. -/
def Action.actor : Action T → Option T
  | .tick _ => none
  | .call t | .tryAcquire t _ _ | .send t _ _ | .receive t _ => some t

theorem frame_effect {a : Action T} (he : Enabled s a) (hu : a.actor ≠ some u) :
    Frame s (effect method answer delay s a) u := by
  have hne {t : T} (h : (some t : Option T) ≠ some u) : u ≠ t := fun hut => h (by rw [hut])
  cases a with
  | tick elapsed => exact ⟨rfl, rfl, rfl, List.Subset.refl _⟩
  | call t => exact Frame.of_goTo (hne hu) rfl rfl rfl
  | tryAcquire t wake between => exact Frame.turn (hne hu) (turn_tryAcquire s t he.2.2)
  | send t failed wake =>
    refine ⟨Function.update_of_ne (hne hu) _ _, ?_, rfl, List.subset_append_left _ _⟩
    exact attempts_send_other s (hne hu) failed _ s.now
  | receive t failed => exact Frame.of_goTo (hne hu) rfl rfl rfl

omit [DecidableEq T] in
theorem knownAt_of_phase [DecidableEq T] {p : Phase α} (hp : s.phase t = p)
    (h : KnownAt method answer delay s t p) : KnownAt method answer delay s t (s.phase t) := by
  rw [hp]
  exact h

theorem knownAt_turn {wake : ℚ} (hcall : KnownAt method answer delay s t (.acquiring wake))
    (hturn : Turn s t s') : KnownAt method answer delay s' t (s'.phase t) := by
  cases hturn with
  | granted htoken =>
    apply knownAt_of_phase (Function.update_self t (.waiting 0 s.now) s.phase)
    refine ⟨hcall.1, ?_, ⟨Nat.zero_le _, fun k hk => absurd hk (Nat.not_lt_zero k)⟩,
      fun k hk => absurd hk (Nat.succ_ne_zero k).symm⟩
    rw [tokensOf_grant, if_pos rfl, hcall.2]
  | @asleep later wait hnone hlater hwait =>
    have hphase : (s.refuse t later (.acquiring (later + wait))).phase t =
        .acquiring (later + wait) := Function.update_self _ _ _
    exact knownAt_of_phase hphase hcall
  | @panicked later hnone hlater hwait =>
    have hphase : (s.refuse t later .panicked).phase t = .panicked := Function.update_self _ _ _
    exact knownAt_of_phase hphase hcall

theorem knownAt_answer (h : Followed method answer delay s) {failed : ℕ}
    (hcall : KnownAt method answer delay s t (.inFlight failed)) :
    KnownAt method answer delay s t (afterAnswer method answer delay t failed s.now) := by
  obtain ⟨hattempts, htoken, hfailed, hbefore⟩ := hcall
  have hfinished (hlast : ¬Retryable (answer t failed)) :
      KnownAt method answer delay s t (.finished (answer t failed)) :=
    ⟨htoken, (RpcClient.withRetry_of_settled hfailed hbefore hlast).symm, failed, hfailed,
      hattempts, hbefore, fun _ => hlast⟩
  unfold afterAnswer
  cases hanswer : answer t failed with
  | ok v =>
    rw [hanswer] at hfinished
    apply hfinished
    rintro ⟨e, he, -⟩
    cases he
  | error e =>
    dsimp only
    by_cases hretry : e.isRetryable = true
    · have htried : Retryable (answer t failed) := ⟨e, hanswer, hretry⟩
      have hall : ∀ k < failed + 1, Retryable (answer t k) := by
        intro k hk
        rcases Nat.lt_succ_iff_lt_or_eq.mp hk with hlt | rfl
        · exact hbefore k hlt
        · exact htried
      rw [if_pos hretry]
      by_cases hmore : failed < maxRetries
      · rw [if_pos hmore]
        refine ⟨hattempts, htoken, ⟨hmore, hall⟩, fun k hk => ?_⟩
        obtain rfl : failed = k := Nat.succ_injective hk
        -- the attempt that has just been answered is the last one sent
        have hmem : failed ∈ s.attempts t := by
          rw [hattempts]
          exact List.mem_range.mpr (Nat.lt_succ_self failed)
        obtain ⟨⟨t', k', time⟩, hx, hk'⟩ := List.mem_map.mp hmem
        obtain ⟨hsent, ht'⟩ := List.mem_filter.mp hx
        have htask : t' = t := of_decide_eq_true ht'
        subst htask
        subst hk'
        exact ⟨time, hsent, add_le_add_left (h.sent_le _ hsent) _⟩
      · rw [if_neg hmore]
        have hlast : failed = maxRetries := Nat.le_antisymm hfailed (Nat.le_of_not_lt hmore)
        refine ⟨htoken, (RpcClient.withRetry_of_exhausted fun k hk => hall k ?_).symm, failed,
          hfailed, hattempts, hbefore, fun hlt => absurd hlt hmore⟩
        rw [hlast]
        exact hk
    · rw [if_neg hretry]
      rw [hanswer] at hfinished
      apply hfinished
      rintro ⟨e', he', hretry'⟩
      cases he'
      exact hretry hretry'

theorem knownAt_actor (h : Followed method answer delay s) {a : Action T} (he : Enabled s a)
    (hactor : a.actor = some t) :
    KnownAt method answer delay (effect method answer delay s a) t
      ((effect method answer delay s a).phase t) := by
  have hcall := h.call t
  cases a with
  | tick elapsed => cases hactor
  | call u =>
    cases hactor
    rw [show s.phase t = .idle from he] at hcall
    have hphase : (s.goTo t (.acquiring s.now)).phase t = .acquiring s.now :=
      Function.update_self _ _ _
    exact knownAt_of_phase hphase hcall
  | tryAcquire u wake between =>
    cases hactor
    rw [he.1] at hcall
    exact knownAt_turn hcall (turn_tryAcquire s t he.2.2)
  | send u failed wake =>
    cases hactor
    rw [he.1] at hcall
    obtain ⟨hattempts, htoken, hfailing, -⟩ := hcall
    apply knownAt_of_phase (Function.update_self t (.inFlight failed) s.phase)
    refine ⟨?_, htoken, hfailing⟩
    rw [List.range_succ, ← hattempts]
    exact attempts_send_self s t failed _ s.now
  | receive u failed =>
    cases hactor
    rw [show s.phase t = .inFlight failed from he] at hcall
    apply knownAt_of_phase (Function.update_self t _ s.phase)
    exact (knownAt_answer h hcall).mono rfl rfl (List.Subset.refl _)

theorem Turn.now_le (hturn : Turn s t s') : s.now ≤ s'.now := by
  cases hturn with
  | granted htoken => exact le_refl s.now
  | asleep hnone hlater hwait => exact hlater
  | panicked hnone hlater hwait => exact hlater

theorem Turn.sent (hturn : Turn s t s') : s'.sent = s.sent := by
  cases hturn with
  | granted htoken => rfl
  | asleep hnone hlater hwait => rfl
  | panicked hnone hlater hwait => rfl

variable (method answer delay) in
theorem now_le_effect {a : Action T} (he : Enabled s a) :
    s.now ≤ (effect method answer delay s a).now := by
  cases a with
  | tick elapsed => exact le_add_of_nonneg_right he
  | tryAcquire t wake between => exact (turn_tryAcquire s t he.2.2).now_le
  | call | send | receive => exact le_refl s.now

theorem sent_effect {a : Action T} (he : Enabled s a) :
    (effect method answer delay s a).sent = s.sent ∨
      ∃ t failed wake, a = .send t failed wake ∧
        (effect method answer delay s a).sent = s.sent ++ [(t, failed, s.now)] := by
  cases a with
  | send t failed wake => exact .inr ⟨t, failed, wake, rfl, rfl⟩
  | tryAcquire t wake between => exact .inl (turn_tryAcquire s t he.2.2).sent
  | tick | call | receive => exact .inl rfl

theorem Followed.effect (h : Followed method answer delay s) {a : Action T} (he : Enabled s a) :
    Followed method answer delay (RpcRequests.effect method answer delay s a) where
  call u := by
    by_cases hactor : a.actor = some u
    · exact knownAt_actor h he hactor
    · exact (h.call u).of_frame (frame_effect he hactor)
  sent_le x hx := by
    have hlater := now_le_effect method answer delay he
    rcases sent_effect he with hsame | ⟨t, failed, wake, ha, hsent⟩
    · rw [hsame] at hx
      exact (h.sent_le x hx).trans hlater
    · rw [hsent] at hx
      rcases List.mem_append.mp hx with hold | hnew
      · exact (h.sent_le x hold).trans hlater
      · rw [List.mem_singleton.mp hnew]
        exact hlater
  spaced t k time hx := by
    rcases sent_effect he with hsame | ⟨u, failed, wake, ha, hsent⟩
    · rw [hsame] at hx ⊢
      exact h.spaced t k time hx
    · rw [hsent] at hx ⊢
      rcases List.mem_append.mp hx with hold | hnew
      · obtain ⟨time', hmem, hle⟩ := h.spaced t k time hold
        exact ⟨time', List.mem_append_left _ hmem, hle⟩
      · -- the attempt before was sent when the call was last answered, or earlier
        subst ha
        have hcall := h.call u
        rw [he.1] at hcall
        obtain ⟨-, -, -, hspaced⟩ := hcall
        cases List.mem_singleton.mp hnew
        obtain ⟨time', hmem, hle⟩ := hspaced k rfl
        exact ⟨time', List.mem_append_left _ hmem, hle.trans he.2⟩

theorem followed_initial (maxRps : UInt32) (start : ℚ) :
    Followed method answer delay (State.initial T α maxRps start) where
  call _ := ⟨rfl, rfl⟩
  sent_le _ hx := absurd hx List.not_mem_nil
  spaced _ _ _ hx := absurd hx List.not_mem_nil

theorem followed_run [DecidableEq α] (maxRps : UInt32) (start : ℚ) (actions : List (Action T)) :
    Followed method answer delay (run method answer delay maxRps start actions) := by
  unfold run
  have h : Followed method answer delay (State.initial T α maxRps start) :=
    followed_initial maxRps start
  generalize State.initial T α maxRps start = s at h
  induction actions generalizing s with
  | nil => exact h
  | cons a as ih =>
    apply ih
    exact Guarded.step_preserves h fun he => h.effect he

theorem Followed.bound (h : Followed method answer delay s) (t : T) :
    s.tokensOf t ≤ 1 ∧ ∃ n ≤ 5, s.attempts t = List.range n ∧ (n ≠ 0 → s.tokensOf t = 1) := by
  have hcall := h.call t
  generalize s.phase t = p at hcall
  cases p with
  | idle | acquiring | panicked =>
    exact ⟨hcall.2.trans_le zero_le_one, 0, Nat.zero_le 5, hcall.1, fun h0 => absurd rfl h0⟩
  | waiting failed wake =>
    obtain ⟨hattempts, htoken, hfailing, -⟩ := hcall
    exact ⟨htoken.le, failed, hfailing.1.trans (Nat.le_succ 4), hattempts, fun _ => htoken⟩
  | inFlight failed =>
    obtain ⟨hattempts, htoken, hfailing⟩ := hcall
    exact ⟨htoken.le, failed + 1, Nat.succ_le_succ hfailing.1, hattempts, fun _ => htoken⟩
  | finished result =>
    obtain ⟨htoken, -, last, hlast, hattempts, -⟩ := hcall
    exact ⟨htoken.le, last + 1, Nat.succ_le_succ hlast, hattempts, fun _ => htoken⟩

theorem count_attempts (s : State T α) (t : T) (k : ℕ) :
    (s.sent.map fun x => (x.1, x.2.1)).count (t, k) = (s.attempts t).count k := by
  unfold State.attempts
  induction s.sent with
  | nil => rfl
  | cons x xs ih =>
    rw [List.map_cons, List.count_cons, ih]
    by_cases hx : x.1 = t
    · rw [List.filter_cons_of_pos (by simpa using hx), List.map_cons, List.count_cons]
      congr 1
      simp [Prod.ext_iff, hx]
    · rw [List.filter_cons_of_neg (by simpa using hx), if_neg (by simp [Prod.ext_iff, hx]),
        Nat.add_zero]

theorem Followed.nodup_sent (h : Followed method answer delay s) :
    (s.sent.map fun x => (x.1, x.2.1)).Nodup := by
  rw [List.nodup_iff_count_le_one]
  rintro ⟨t, k⟩
  obtain ⟨-, n, -, hattempts, -⟩ := h.bound t
  rw [count_attempts, hattempts]
  exact List.nodup_iff_count_le_one.mp List.nodup_range k

theorem Followed.sent_le_granted (h : Followed method answer delay s) :
    s.sent.length ≤ 5 * s.granted.length := by
  have hsub : (s.sent.map fun x => (x.1, x.2.1)) ⊆
      (s.granted.map Prod.fst) ×ˢ List.range 5 := by
    rintro ⟨t, k⟩ hmem
    have hcount := List.count_pos_iff.mpr hmem
    rw [count_attempts] at hcount
    obtain ⟨-, n, hn, hattempts, htoken⟩ := h.bound t
    have hk : k < n := by
      rw [hattempts] at hcount
      exact List.mem_range.mp (List.count_pos_iff.mp hcount)
    have ht : 0 < (s.granted.map Prod.fst).count t := by
      have hone := htoken (by omega)
      unfold State.tokensOf at hone
      omega
    exact List.mem_product.mpr ⟨List.count_pos_iff.mp ht, List.mem_range.mpr (hk.trans_le hn)⟩
  have hle := (List.subperm_of_subset h.nodup_sent hsub).length_le
  rw [List.length_map, List.length_product, List.length_map, List.length_range] at hle
  omega

omit [DecidableEq T] in
theorem Metered.granted_length_le {m start : ℚ} (h : Metered m start s) :
    (s.granted.length : ℚ) ≤ m + m * (s.now - start) := by
  have hall : grantedIn start s.now s.granted = s.granted.length := by
    unfold grantedIn
    congr 1
    rw [List.filter_eq_self]
    intro g hg
    obtain ⟨hstart, hlast⟩ := h.ledger.granted_le g hg
    rw [decide_eq_true hstart, decide_eq_true (hlast.trans h.clock)]
    rfl
  have hwindow := h.ledger.window start s.now (h.ledger.began.trans h.clock)
  rwa [hall] at hwindow

variable (method answer delay) in
omit [DecidableEq T] in
theorem afterAnswer_cases (t : T) (failed : ℕ) (now : ℚ) :
    (∃ result, afterAnswer method answer delay t failed now = .finished result) ∨
      failed < maxRetries ∧
        afterAnswer method answer delay t failed now =
          .waiting (failed + 1) (now + delay t failed) := by
  unfold afterAnswer
  cases answer t failed with
  | ok v => exact .inl ⟨_, rfl⟩
  | error e =>
    dsimp only
    split_ifs with hretry hmore
    · exact .inr ⟨hmore, rfl⟩
    · exact .inl ⟨_, rfl⟩
    · exact .inl ⟨_, rfl⟩

variable [DecidableEq α]

/-- A call that is refused once. -/
def refusedOnce (_ : Unit) (attempt : ℕ) : Except RpcError ℕ :=
  if attempt = 0 then .error (.rateLimit 1) else .ok 7

/-- In every run each call takes at most one token, no attempt is sent twice, and the requests that
the node is sent are at most five times what the limiter lets through: an attempt that is tried
again takes no token. -/
theorem sent_le_five_times (maxRps : UInt32) (start : ℚ) (actions : List (Action T)) :
    let s := run method answer delay maxRps start actions
    (∀ t, s.tokensOf t ≤ 1) ∧ (s.sent.map fun x => (x.1, x.2.1)).Nodup ∧
      s.sent.length ≤ 5 * s.granted.length ∧
      (s.sent.length : ℚ) ≤ 5 * (maxRps.toNat + maxRps.toNat * (s.now - start)) := by
  intro s
  have hs : Followed method answer delay s := followed_run maxRps start actions
  have hmetered : Metered maxRps.toNat start s := metered_run maxRps start actions
  refine ⟨fun t => (hs.bound t).1, hs.nodup_sent, hs.sent_le_granted, ?_⟩
  have hcast : (s.sent.length : ℚ) ≤ 5 * s.granted.length := by
    exact_mod_cast hs.sent_le_granted
  have hgranted := hmetered.granted_length_le
  exact hcast.trans (mul_le_mul_of_nonneg_left hgranted (by norm_num))

/-- Some actions lead to a state in which the call has finished. -/
def CanFinish (method : T → String) (answer : T → ℕ → Except RpcError α) (delay : T → ℕ → ℚ)
    (s : State T α) (t : T) : Prop :=
  ∃ (actions : List (Action T)) (result : Except RpcError α),
    (actions.foldl (calls method answer delay).step s).phase t = .finished result

theorem CanFinish.of_step {a : Action T} (he : Enabled s a)
    (h : CanFinish method answer delay (effect method answer delay s a) t) :
    CanFinish method answer delay s t := by
  obtain ⟨actions, result, hfinished⟩ := h
  refine ⟨a :: actions, result, ?_⟩
  rw [List.foldl_cons, Guarded.step_of_enabled (g := calls method answer delay) he]
  exact hfinished

theorem CanFinish.of_finished {result : Except RpcError α} (h : s.phase t = .finished result) :
    CanFinish method answer delay s t := ⟨[], result, h⟩

theorem CanFinish.of_tick (wake : ℚ)
    (h : ∀ time, wake ≤ time → s.now + 1 ≤ time →
      CanFinish method answer delay { s with now := time } t) :
    CanFinish method answer delay s t := by
  have helapsed : 0 ≤ max (wake - s.now) 0 + 1 :=
    add_nonneg (le_max_right _ _) zero_le_one
  have hwake : wake ≤ s.now + (max (wake - s.now) 0 + 1) := by
    linarith [le_max_left (wake - s.now) 0]
  have hlater : s.now + 1 ≤ s.now + (max (wake - s.now) 0 + 1) := by
    linarith [le_max_right (wake - s.now) 0]
  apply CanFinish.of_step (a := .tick (max (wake - s.now) 0 + 1)) helapsed
  exact h _ hwake hlater

theorem canFinish_inFlight (failed : ℕ) (hphase : s.phase t = .inFlight failed)
    (hagain : ∀ (u : State T α) (wake : ℚ), failed < maxRetries →
      u.phase t = .waiting (failed + 1) wake → CanFinish method answer delay u t) :
    CanFinish method answer delay s t := by
  have he : Enabled s (.receive t failed) := hphase
  apply CanFinish.of_step he
  have hnext : (effect method answer delay s (.receive t failed)).phase t =
      afterAnswer method answer delay t failed s.now := Function.update_self _ _ _
  rcases afterAnswer_cases method answer delay t failed s.now
    with ⟨result, hresult⟩ | ⟨hmore, hwaiting⟩
  · exact CanFinish.of_finished (hnext.trans hresult)
  · exact hagain _ _ hmore (hnext.trans hwaiting)

theorem canFinish_waiting {left : ℕ} (failed : ℕ) (hleft : failed + left = maxRetries) (wake : ℚ)
    (hphase : s.phase t = .waiting failed wake) : CanFinish method answer delay s t := by
  induction left generalizing s failed wake with
  | zero =>
    apply CanFinish.of_tick wake
    intro time hwake hlater
    have he : Enabled { s with now := time } (.send t failed wake) := ⟨hphase, hwake⟩
    apply CanFinish.of_step he
    apply canFinish_inFlight failed (Function.update_self _ _ _)
    intro v wake' hmore hv
    omega
  | succ left ih =>
    apply CanFinish.of_tick wake
    intro time hwake hlater
    have he : Enabled { s with now := time } (.send t failed wake) := ⟨hphase, hwake⟩
    apply CanFinish.of_step he
    apply canFinish_inFlight failed (Function.update_self _ _ _)
    intro v wake' hmore hv
    exact ih (failed + 1) (by omega) wake' hv

theorem canFinish_acquiring {m start : ℚ} (hm : 1 ≤ m) (h : Metered m start s) (wake : ℚ)
    (hphase : s.phase t = .acquiring wake) : CanFinish method answer delay s t := by
  apply CanFinish.of_tick wake
  intro time hwake hlater
  have he : Enabled { s with now := time } (.tryAcquire t wake 0) := ⟨hphase, hwake, le_refl 0⟩
  have hmetered : Metered m start { s with now := time } :=
    ⟨h.ledger, h.clock.trans (by linarith)⟩
  have hclock := h.clock
  have htoken : 1 ≤ Refill.fill m m s.bucket.level time :=
    Refill.one_le_fill h.ledger.bucket.within hm hm
      (show s.bucket.lastRefill + 1 ≤ time by linarith)
  have hgrant : effect method answer delay { s with now := time } (.tryAcquire t wake 0) =
      State.grant { s with now := time } t :=
    (turn_tryAcquire { s with now := time } t (le_refl 0)).eq_grant hmetered htoken
  apply CanFinish.of_step he
  rw [hgrant]
  exact canFinish_waiting 0 (Nat.zero_add maxRetries) time (Function.update_self _ _ _)

theorem canFinish_idle {m start : ℚ} (hm : 1 ≤ m) (h : Metered m start s)
    (hphase : s.phase t = .idle) : CanFinish method answer delay s t := by
  have he : Enabled s (.call t) := hphase
  apply CanFinish.of_step he
  exact canFinish_acquiring hm (h.effect (zero_le_one.trans hm) he) s.now
    (Function.update_self _ _ _)

omit [DecidableEq α] in
theorem goTo_ne_panicked {p : Phase α} (hp : p ≠ .panicked) (h : ∀ u, s.phase u ≠ .panicked)
    (u : T) : (s.goTo t p).phase u ≠ .panicked := by
  by_cases hu : u = t
  · rw [hu, show (s.goTo t p).phase t = p from Function.update_self _ _ _]
    exact hp
  · rw [show (s.goTo t p).phase u = s.phase u from Function.update_of_ne hu _ _]
    exact h u

omit [DecidableEq α] in
theorem Turn.ne_panicked {m start : ℚ} (hm : 1 ≤ m) (h : Metered m start s) (hturn : Turn s t s')
    (hbefore : ∀ u, s.phase u ≠ .panicked) (u : T) : s'.phase u ≠ .panicked := by
  cases hturn with
  | granted htoken => exact goTo_ne_panicked (by simp) hbefore u
  | asleep hnone hlater hwait => exact goTo_ne_panicked (by simp) hbefore u
  | @panicked later hnone hlater hwait =>
    have hsound := TokenBucket.refill_sound (zero_le_one.trans hm) h.ledger.bucket s.now
    exact absurd hwait (TokenBucket.timeUntilAvailable_ne_none hm hsound later)

omit [DecidableEq α] in
theorem effect_ne_panicked {m start : ℚ} (hm : 1 ≤ m) (h : Metered m start s) {a : Action T}
    (he : Enabled s a) (hbefore : ∀ u, s.phase u ≠ .panicked) (u : T) :
    (effect method answer delay s a).phase u ≠ .panicked := by
  cases a with
  | tick elapsed => exact hbefore u
  | call t => exact goTo_ne_panicked (by simp) hbefore u
  | tryAcquire t wake between => exact (turn_tryAcquire s t he.2.2).ne_panicked hm h hbefore u
  | send t failed wake => exact goTo_ne_panicked (by simp) hbefore u
  | receive t failed =>
    refine goTo_ne_panicked ?_ hbefore u
    rcases afterAnswer_cases method answer delay t failed s.now with ⟨result, h⟩ | ⟨-, h⟩
    · simp [h]
    · simp [h]

theorem run_ne_panicked {maxRps : UInt32} (hm : (1 : ℚ) ≤ maxRps.toNat) (start : ℚ)
    (actions : List (Action T)) (t : T) :
    (run method answer delay maxRps start actions).phase t ≠ .panicked := by
  induction actions using List.reverseRecOn generalizing t with
  | nil => simp [run, State.initial]
  | append_singleton as a ih =>
    rw [run_append]
    have hmetered : Metered maxRps.toNat start (run method answer delay maxRps start as) :=
      metered_run maxRps start as
    apply Guarded.step_preserves (I := fun s : State T α => s.phase t ≠ .panicked) (ih t)
    intro he
    exact effect_ne_panicked hm hmetered he ih t

/-- With a limit of at least one request in a second no call ever panics, and in every state that
is reached every call can go on to its end, with the result of `with_retry`. -/
theorem call_can_finish {maxRps : UInt32} (hmax : 1 ≤ maxRps) (start : ℚ)
    (actions : List (Action T)) (t : T) :
    (run method answer delay maxRps start actions).phase t ≠ .panicked ∧
      ∃ more, (run method answer delay maxRps start (actions ++ more)).phase t =
        .finished (RpcClient.withRetry (method t) (answer t)) := by
  have hm : (1 : ℚ) ≤ maxRps.toNat := by
    exact_mod_cast UInt32.le_iff_toNat_le.mp hmax
  have hmetered : Metered maxRps.toNat start (run method answer delay maxRps start actions) :=
    metered_run maxRps start actions
  have hfollowed : Followed method answer delay (run method answer delay maxRps start actions) :=
    followed_run maxRps start actions
  have hrunning : (run method answer delay maxRps start actions).phase t ≠ .panicked :=
    run_ne_panicked hm start actions t
  refine ⟨hrunning, ?_⟩
  have hcall := hfollowed.call t
  have hfinish : CanFinish method answer delay (run method answer delay maxRps start actions) t := by
    cases hphase : (run method answer delay maxRps start actions).phase t with
    | idle => exact canFinish_idle hm hmetered hphase
    | acquiring wake => exact canFinish_acquiring hm hmetered wake hphase
    | waiting failed wake =>
      rw [hphase] at hcall
      obtain ⟨-, -, hfailing, -⟩ := hcall
      exact canFinish_waiting failed (Nat.add_sub_of_le hfailing.1) wake hphase
    | inFlight failed =>
      apply canFinish_inFlight failed hphase
      intro u wake hmore hu
      exact canFinish_waiting (failed + 1) (Nat.add_sub_of_le hmore) wake hu
    | finished result => exact CanFinish.of_finished hphase
    | panicked => exact absurd hphase hrunning
  obtain ⟨more, result, hend⟩ := hfinish
  rw [← run_append] at hend
  have hlast : Followed method answer delay
      (run method answer delay maxRps start (actions ++ more)) :=
    followed_run maxRps start (actions ++ more)
  have hdone := hlast.call t
  rw [hend] at hdone
  exact ⟨more, hend.trans (congrArg Phase.finished hdone.2.1)⟩

theorem call_can_finish_refusedOnce :
    (run (fun _ => "eth_blockNumber") refusedOnce (fun _ _ => 2) 1 0
        [.call (), .tryAcquire () 0 0]).phase () ≠ .panicked ∧
      ∃ more, (run (fun _ => "eth_blockNumber") refusedOnce (fun _ _ => 2) 1 0
          ([.call (), .tryAcquire () 0 0] ++ more)).phase () =
        .finished (RpcClient.withRetry "eth_blockNumber" (refusedOnce ())) :=
  call_can_finish (by decide) 0 _ ()

end Calls

end RpcRequests

end ForgeIndex
