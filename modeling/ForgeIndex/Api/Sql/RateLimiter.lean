import Mathlib.Data.List.Flatten
import Mathlib.Data.Rat.Cast.Order
import ForgeIndex.Lib.Refill

/-!
# The rate limiter of the SQL endpoint

`forge-index-api/src/handlers/sql.rs`: a bucket of tokens for each address.  The floating point
fields are rational numbers here, and so are the readings of the clock, in seconds.
-/

namespace ForgeIndex

inductive IpAddr where
  | v4 (address : BitVec 32)
  | v6 (address : BitVec 128)
  deriving DecidableEq, Repr

structure TokenBucket where
  tokens : ℚ
  maxTokens : ℚ
  refillRate : ℚ
  lastRefill : ℚ
  deriving DecidableEq, Repr

namespace TokenBucket

/-- `TokenBucket::new`; the clock is read once. -/
def new (maxRps : UInt32) (now : ℚ) : TokenBucket where
  tokens := maxRps.toNat
  maxTokens := maxRps.toNat
  refillRate := maxRps.toNat
  lastRefill := now

/-- `TokenBucket::try_acquire`.  The time between two instants is not negative. -/
def tryAcquire (b : TokenBucket) (now : ℚ) : Bool × TokenBucket :=
  let elapsed := max (now - b.lastRefill) 0
  let tokens := min (b.tokens + elapsed * b.refillRate) b.maxTokens
  if 1 ≤ tokens then (true, { b with tokens := tokens - 1, lastRefill := now })
  else (false, { b with tokens := tokens, lastRefill := now })

end TokenBucket

structure SqlRateLimiter where
  buckets : IpAddr → Option TokenBucket
  maxRps : UInt32

/-- A call of `try_acquire`: what the clock says when a new bucket is made, if there is none, and
when the token is taken. -/
structure Call where
  ip : IpAddr
  opened : ℚ
  now : ℚ

namespace SqlRateLimiter

def new (maxRps : UInt32) : SqlRateLimiter := ⟨fun _ => none, maxRps⟩

/-- The bucket that a call finds or makes. -/
def entry (l : SqlRateLimiter) (c : Call) : TokenBucket :=
  (l.buckets c.ip).getD (TokenBucket.new l.maxRps c.opened)

def tryAcquire (l : SqlRateLimiter) (c : Call) : Bool × SqlRateLimiter :=
  let r := (l.entry c).tryAcquire c.now
  (r.1, { l with buckets := Function.update l.buckets c.ip (some r.2) })

/-- The calls with their answers, and the limiter behind them. -/
def run (l : SqlRateLimiter) : List Call → List (Call × Bool) × SqlRateLimiter
  | [] => ([], l)
  | c :: cs =>
    let r := l.tryAcquire c
    let rest := run r.2 cs
    ((c, r.1) :: rest.1, rest.2)

end SqlRateLimiter

/-- The clock does not go back. -/
def Chronological (calls : List Call) : Prop :=
  (calls.flatMap fun c => [c.opened, c.now]).Pairwise (· ≤ ·)

namespace TokenBucket

def level (b : TokenBucket) : Refill.Level ℚ := ⟨b.tokens, b.lastRefill⟩

/-- A bucket of a limiter with `m` requests in a second. -/
structure Sound (m : ℚ) (b : TokenBucket) : Prop where
  max : b.maxTokens = m
  rate : b.refillRate = m
  within : b.level.Within m

variable {m : ℚ} {b : TokenBucket}

theorem new_sound (maxRps : UInt32) (now : ℚ) : (new maxRps now).Sound maxRps.toNat :=
  ⟨rfl, rfl, Nat.cast_nonneg _, le_refl _⟩

theorem tryAcquire_eq (h : b.Sound m) (now : ℚ) :
    ((b.tryAcquire now).1, (b.tryAcquire now).2.level) = Refill.take m m b.level now := by
  have hfill : min (b.tokens + Max.max (now - b.lastRefill) 0 * b.refillRate) b.maxTokens =
      Refill.fill m m b.level now := by
    rw [h.max, h.rate]
    rfl
  unfold tryAcquire Refill.take
  simp only [hfill]
  split_ifs <;> rfl

theorem tryAcquire_level (h : b.Sound m) (now : ℚ) :
    (b.tryAcquire now).2.level = (Refill.take m m b.level now).2 :=
  congrArg Prod.snd (tryAcquire_eq h now)

theorem tryAcquire_answer (h : b.Sound m) (now : ℚ) :
    (b.tryAcquire now).1 = (Refill.take m m b.level now).1 :=
  congrArg Prod.fst (tryAcquire_eq h now)

theorem tryAcquire_sound (hm : 0 ≤ m) (h : b.Sound m) (now : ℚ) : (b.tryAcquire now).2.Sound m := by
  refine ⟨?_, ?_, ?_⟩
  · rw [← h.max]
    unfold tryAcquire
    dsimp only
    split_ifs <;> rfl
  · rw [← h.rate]
    unfold tryAcquire
    dsimp only
    split_ifs <;> rfl
  · rw [tryAcquire_level h]
    exact Refill.take_within h.within hm now

end TokenBucket

namespace SqlRateLimiter

variable {l l' : SqlRateLimiter}

/-- Every bucket is one of this limiter. -/
def Sound (l : SqlRateLimiter) : Prop :=
  ∀ ip b, l.buckets ip = some b → b.Sound l.maxRps.toNat

theorem entry_sound (h : l.Sound) (c : Call) : (l.entry c).Sound l.maxRps.toNat := by
  unfold entry
  cases hb : l.buckets c.ip with
  | none => exact TokenBucket.new_sound l.maxRps c.opened
  | some b => exact h c.ip b hb

theorem bucket_self (l : SqlRateLimiter) (c : Call) :
    (l.tryAcquire c).2.buckets c.ip = some ((l.entry c).tryAcquire c.now).2 :=
  Function.update_self _ _ _

theorem bucket_other {c : Call} {ip : IpAddr} (h : ip ≠ c.ip) :
    (l.tryAcquire c).2.buckets ip = l.buckets ip := Function.update_of_ne h _ _

theorem tryAcquire_sound (h : l.Sound) (c : Call) : (l.tryAcquire c).2.Sound := by
  intro ip b hb
  by_cases hip : ip = c.ip
  · subst hip
    rw [bucket_self] at hb
    rw [← Option.some.inj hb]
    exact TokenBucket.tryAcquire_sound (Nat.cast_nonneg _) (entry_sound h c) c.now
  · rw [bucket_other hip] at hb
    exact h ip b hb

theorem run_sound (h : l.Sound) (calls : List Call) : (l.run calls).2.Sound := by
  induction calls generalizing l with
  | nil => exact h
  | cons c cs ih => exact ih (tryAcquire_sound h c)

theorem run_maxRps (calls : List Call) : (l.run calls).2.maxRps = l.maxRps := by
  induction calls generalizing l with
  | nil => rfl
  | cons c cs ih => exact @ih (l.tryAcquire c).2

theorem filter_run (ip : IpAddr) (hbucket : l.buckets ip = l'.buckets ip)
    (hmax : l.maxRps = l'.maxRps) (calls : List Call) :
    (l.run calls).1.filter (fun a => a.1.ip = ip) = (l'.run (calls.filter fun c => c.ip = ip)).1 := by
  induction calls generalizing l l' with
  | nil => rfl
  | cons c cs ih =>
    by_cases hip : c.ip = ip
    · have hentry : l.entry c = l'.entry c := by
        unfold entry
        rw [hip, hbucket, hmax]
      have hanswer : (l.tryAcquire c).1 = (l'.tryAcquire c).1 :=
        congrArg (fun b => (b.tryAcquire c.now).1) hentry
      have hafter : (l.tryAcquire c).2.buckets ip = (l'.tryAcquire c).2.buckets ip := by
        rw [← hip, bucket_self, bucket_self, hentry]
      have hrest := ih hafter hmax
      rw [List.filter_cons_of_pos (by simpa using hip)]
      show ((c, (l.tryAcquire c).1) :: ((l.tryAcquire c).2.run cs).1).filter _ =
        (c, (l'.tryAcquire c).1) :: ((l'.tryAcquire c).2.run _).1
      rw [List.filter_cons_of_pos (by simpa using hip), hrest, hanswer]
    · have hafter : (l.tryAcquire c).2.buckets ip = l'.buckets ip :=
        (bucket_other (Ne.symm hip)).trans hbucket
      have hrest := ih hafter hmax
      rw [List.filter_cons_of_neg (by simpa using hip)]
      show ((c, (l.tryAcquire c).1) :: ((l.tryAcquire c).2.run cs).1).filter _ = _
      rw [List.filter_cons_of_neg (by simpa using hip), hrest]

/-- The times of the accepted calls. -/
def acceptedTimes (answers : List (Call × Bool)) : List ℚ :=
  (answers.filter fun a => a.2).map fun a => a.1.now

theorem acceptedTimes_cons (c : Call) (cs : List Call) :
    acceptedTimes (l.run (c :: cs)).1 =
      (if (l.tryAcquire c).1 then [c.now] else []) ++
        acceptedTimes ((l.tryAcquire c).2.run cs).1 := by
  show acceptedTimes ((c, (l.tryAcquire c).1) :: ((l.tryAcquire c).2.run cs).1) = _
  unfold acceptedTimes
  cases (l.tryAcquire c).1 <;> rfl

/-- The calls of one address are requests to the bucket that the first of them finds or makes. -/
theorem acceptedTimes_run {m : ℚ} (hm : 0 ≤ m) {c : Call} {cs : List Call}
    (hb : (l.entry c).Sound m) (hcalls : ∀ d ∈ cs, d.ip = c.ip) :
    acceptedTimes (l.run (c :: cs)).1 =
      Refill.accepted m m (l.entry c).level ((c :: cs).map Call.now) := by
  induction cs generalizing l c with
  | nil =>
    rw [acceptedTimes_cons, List.map_singleton, Refill.accepted,
      ← TokenBucket.tryAcquire_answer hb]
    rfl
  | cons d cs ih =>
    rw [List.forall_mem_cons] at hcalls
    have hentry : (l.tryAcquire c).2.entry d = ((l.entry c).tryAcquire c.now).2 := by
      unfold entry
      rw [hcalls.1, bucket_self]
      rfl
    have hsound := TokenBucket.tryAcquire_sound hm hb c.now
    rw [← hentry] at hsound
    have hrest := ih hsound fun e he => (hcalls.2 e he).trans hcalls.1.symm
    rw [hentry, TokenBucket.tryAcquire_level hb] at hrest
    have hanswer : (l.tryAcquire c).1 = (Refill.take m m (l.entry c).level c.now).1 :=
      TokenBucket.tryAcquire_answer hb c.now
    rw [acceptedTimes_cons, hrest, hanswer]
    rfl

/-- The accepted calls of an address in a window. -/
def acceptedIn (ip : IpAddr) (t₁ t₂ : ℚ) (answers : List (Call × Bool)) : List (Call × Bool) :=
  answers.filter fun a => a.2 && (decide (a.1.ip = ip) && (decide (t₁ ≤ a.1.now) &&
    decide (a.1.now ≤ t₂)))

theorem length_acceptedIn (ip : IpAddr) (t₁ t₂ : ℚ) (answers : List (Call × Bool)) :
    (acceptedIn ip t₁ t₂ answers).length =
      ((acceptedTimes (answers.filter fun a => a.1.ip = ip)).filter fun t =>
        decide (t₁ ≤ t) && Refill.before t₂ t).length := by
  unfold acceptedIn acceptedTimes
  rw [List.filter_map, List.length_map, List.filter_filter, List.filter_filter]
  congr 2
  funext a
  unfold Refill.before
  cases a.2 <;> simp [Bool.and_comm]

theorem ahead_of_chronological {m : ℚ} {c : Call} {cs : List Call}
    (h : Chronological (c :: cs)) : Refill.Ahead ⟨m, c.opened⟩ ((c :: cs).map Call.now) := by
  have hsub (cs : List Call) : (cs.map Call.now).Sublist (cs.flatMap fun c => [c.opened, c.now]) := by
    induction cs with
    | nil => exact List.Sublist.refl []
    | cons c cs ih => exact (ih.cons_cons c.now).cons c.opened
  exact h.sublist (((hsub cs).cons_cons c.now).cons_cons c.opened)

theorem chronological_filter {calls : List Call} (h : Chronological calls) (p : Call → Bool) :
    Chronological (calls.filter p) := h.sublist (List.filter_sublist.flatMap _)

theorem new_sound (m : UInt32) : (new m).Sound := fun _ _ h => nomatch h

theorem length_acceptedIn_le (m : UInt32) {calls : List Call} (h : Chronological calls)
    (ip : IpAddr) {t₁ t₂ : ℚ} (hwindow : t₁ ≤ t₂) :
    ((acceptedIn ip t₁ t₂ ((new m).run calls).1).length : ℚ) ≤ m.toNat + m.toNat * (t₂ - t₁) := by
  have hm : (0 : ℚ) ≤ m.toNat := Nat.cast_nonneg _
  rw [length_acceptedIn, filter_run ip rfl rfl]
  have hown := chronological_filter h fun c => c.ip = ip
  have hip : ∀ c ∈ calls.filter fun c => c.ip = ip, c.ip = ip := by
    intro c hc
    simpa using (List.mem_filter.mp hc).2
  cases hcalls : calls.filter fun c => c.ip = ip with
  | nil => exact add_nonneg hm (mul_nonneg hm (sub_nonneg.mpr hwindow))
  | cons c cs =>
    rw [hcalls] at hown hip
    rw [List.forall_mem_cons] at hip
    have hb := entry_sound (new_sound m) c
    rw [acceptedTimes_run hm hb fun d hd => (hip.2 d hd).trans hip.1.symm]
    exact Refill.count_window hb.within hm hwindow (ahead_of_chronological hown)

end SqlRateLimiter

/-- In every run of the limiter each bucket holds between none and `m` tokens, no address is
granted more than a full bucket and `m` for each second of a window, and the answers to an address
do not depend on the others. -/
theorem rateLimit_every_window (m : UInt32) (calls : List Call) (h : Chronological calls) :
    (∀ ip b, ((SqlRateLimiter.new m).run calls).2.buckets ip = some b →
      0 ≤ b.tokens ∧ b.tokens ≤ m.toNat) ∧
    (∀ ip t₁ t₂, t₁ ≤ t₂ →
      ((SqlRateLimiter.acceptedIn ip t₁ t₂ ((SqlRateLimiter.new m).run calls).1).length : ℚ) ≤
        m.toNat + m.toNat * (t₂ - t₁)) ∧
    ∀ ip, ((SqlRateLimiter.new m).run calls).1.filter (fun a => a.1.ip = ip) =
      ((SqlRateLimiter.new m).run (calls.filter fun c => c.ip = ip)).1 := by
  refine ⟨?_, ?_, ?_⟩
  · intro ip b hb
    have hsound := SqlRateLimiter.run_sound (SqlRateLimiter.new_sound m) calls ip b hb
    rw [SqlRateLimiter.run_maxRps] at hsound
    exact ⟨hsound.within.nonneg, hsound.within.le_capacity⟩
  · intro ip t₁ t₂ hwindow
    exact SqlRateLimiter.length_acceptedIn_le m h ip hwindow
  · intro ip
    exact SqlRateLimiter.filter_run ip rfl rfl calls

/-- One address that waits for a second, and another one. -/
def twoCallers : List Call :=
  [⟨.v4 1, 0, 0⟩, ⟨.v4 1, 0, 0⟩, ⟨.v4 2, 0, 0⟩, ⟨.v4 1, 1 / 2, 1 / 2⟩, ⟨.v4 1, 1, 1⟩]

example : ((SqlRateLimiter.new 1).run twoCallers).1.map Prod.snd =
    [true, false, true, false, true] := by decide +kernel

theorem rateLimit_every_window_twoCallers :
    (∀ ip b, ((SqlRateLimiter.new 1).run twoCallers).2.buckets ip = some b →
      0 ≤ b.tokens ∧ b.tokens ≤ (1 : UInt32).toNat) ∧
    (∀ ip t₁ t₂, t₁ ≤ t₂ →
      ((SqlRateLimiter.acceptedIn ip t₁ t₂ ((SqlRateLimiter.new 1).run twoCallers).1).length : ℚ) ≤
        (1 : UInt32).toNat + (1 : UInt32).toNat * (t₂ - t₁)) ∧
    ∀ ip, ((SqlRateLimiter.new 1).run twoCallers).1.filter (fun a => a.1.ip = ip) =
      ((SqlRateLimiter.new 1).run (twoCallers.filter fun c => c.ip = ip)).1 :=
  rateLimit_every_window 1 twoCallers (by unfold Chronological twoCallers; decide +kernel)

end ForgeIndex
