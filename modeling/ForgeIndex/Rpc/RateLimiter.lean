import ForgeIndex.Api.Sql.RateLimiter

/-!
# The rate limiter of the RPC client

`forge-index-rpc/src/rate_limiter.rs`.  Its bucket has the fields of the bucket of the SQL endpoint,
and here too the floating point fields and the readings of the clock are rational numbers.
-/

namespace ForgeIndex

namespace TokenBucket

def refill (b : TokenBucket) (now : ℚ) : TokenBucket :=
  let elapsed := max (now - b.lastRefill) 0
  { b with tokens := min (b.tokens + elapsed * b.refillRate) b.maxTokens, lastRefill := now }

/-- One token less. -/
def spend (b : TokenBucket) : TokenBucket := { b with tokens := b.tokens - 1 }

/-- `TokenBucket::try_acquire` of this crate. -/
def tryTake (b : TokenBucket) (now : ℚ) : Bool × TokenBucket :=
  let b := b.refill now
  if 1 ≤ b.tokens then (true, b.spend) else (false, b)

/-- `TokenBucket::time_until_available`.  A quotient by a rate of zero is infinite, and on an
infinite value `Duration::from_secs_f64` panics. -/
def timeUntilAvailable (b : TokenBucket) (now : ℚ) : Option ℚ × TokenBucket :=
  let b := b.refill now
  if 1 ≤ b.tokens then (some 0, b)
  else if b.refillRate = 0 then (none, b)
  else (some ((1 - b.tokens) / b.refillRate), b)

theorem tryTake_eq_tryAcquire (b : TokenBucket) (now : ℚ) : b.tryTake now = b.tryAcquire now := by
  unfold tryTake tryAcquire refill spend
  dsimp only

variable {m : ℚ} {b : TokenBucket}

theorem refill_level (h : b.Sound m) (now : ℚ) :
    (b.refill now).level = Refill.refill m m b.level now := by
  unfold refill level Refill.refill Refill.fill
  rw [h.max, h.rate]

theorem refill_tokens (h : b.Sound m) (now : ℚ) :
    (b.refill now).tokens = Refill.fill m m b.level now :=
  congrArg Refill.Level.level (refill_level h now)

theorem refill_sound (hm : 0 ≤ m) (h : b.Sound m) (now : ℚ) : (b.refill now).Sound m := by
  refine ⟨h.max, h.rate, ?_⟩
  rw [refill_level h]
  exact Refill.refill_within h.within hm now

theorem spend_sound (h : b.Sound m) (htoken : 1 ≤ b.tokens) : b.spend.Sound m :=
  ⟨h.max, h.rate, sub_nonneg.mpr htoken, (sub_le_self _ zero_le_one).trans h.within.le_capacity⟩

theorem timeUntilAvailable_snd (b : TokenBucket) (now : ℚ) :
    (b.timeUntilAvailable now).2 = b.refill now := by
  unfold timeUntilAvailable
  dsimp only
  split_ifs <;> rfl

theorem timeUntilAvailable_ne_none (hm : 1 ≤ m) (h : b.Sound m) (now : ℚ) :
    (b.timeUntilAvailable now).1 ≠ none := by
  have hrate : (b.refill now).refillRate ≠ 0 := by
    rw [(refill_sound (zero_le_one.trans hm) h now).rate]
    exact (zero_lt_one.trans_le hm).ne'
  unfold timeUntilAvailable
  dsimp only
  split_ifs with htoken
  · exact Option.some_ne_none 0
  · exact Option.some_ne_none _

theorem fill_timeUntilAvailable (hm : 1 ≤ m) (h : b.Sound m) {now wait : ℚ}
    (hwait : (b.timeUntilAvailable now).1 = some wait) :
    0 ≤ wait ∧ 1 ≤ Refill.fill m m (b.refill now).level (now + wait) := by
  have hpos : 0 < m := zero_lt_one.trans_le hm
  have hsound := refill_sound hpos.le h now
  unfold timeUntilAvailable at hwait
  dsimp only at hwait
  split_ifs at hwait with htoken hrate
  · cases hwait
    have hmono : Refill.fill m m (b.refill now).level now ≤
        Refill.fill m m (b.refill now).level (now + 0) :=
      Refill.fill_mono hpos.le (le_add_of_nonneg_right (le_refl (0 : ℚ)))
    refine ⟨le_refl 0, le_trans ?_ hmono⟩
    unfold Refill.fill
    exact le_min (by simpa [level, refill] using htoken) hm
  · cases hwait
    rw [hsound.rate]
    have hdeficit : 0 ≤ (1 - (b.refill now).tokens) / m :=
      div_nonneg (sub_nonneg.mpr (le_of_not_ge htoken)) hpos.le
    refine ⟨hdeficit, le_min ?_ hm⟩
    show 1 ≤ (b.refill now).tokens +
      max (now + (1 - (b.refill now).tokens) / m - now) 0 * m
    rw [add_sub_cancel_left, max_eq_left hdeficit, div_mul_cancel₀ _ hpos.ne', add_sub_cancel]

end TokenBucket

end ForgeIndex
