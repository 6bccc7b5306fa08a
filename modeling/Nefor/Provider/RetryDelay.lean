import Nefor.Provider.Retry

/-! The delay before a retry, in the 128-bit arithmetic that computes it. -/
namespace Nefor.Provider

/-- A result of `u128` arithmetic, unless it overflows. -/
def u128 (n : Nat) : Option Nat := if n < 2 ^ 128 then some n else none

/-- The milliseconds of `RetryPolicy::local_delay` after `base`. -/
def localDelayMs (policy : RetryPolicy) (base : Nat) (outer : Bool) (sample : UInt64) : Option Nat := do
  let scaled ← u128 (base * policy.jitterBps.toNat)
  let denominator := UInt64.size - 1
  let product ← u128 (scaled / 10000 * sample.toNat)
  let left ← u128 (product % denominator * 10000)
  let right ← u128 (scaled % 10000 * sample.toNat)
  let numerator ← u128 (left + right)
  let whole ← u128 (denominator * 10000)
  let jitter ← u128 (product / denominator + numerator / whole)
  let delay ← u128 (base + jitter)
  -- `as u64` keeps the low 64 bits
  return (if outer then delay else min delay policy.maxDelayMs.toNat) % UInt64.size

/-- What a delay starts from: the cooldown of a round, or a backoff within its cap. -/
abbrev DelayBase (policy : RetryPolicy) (outer : Bool) :=
  {ms : Nat // if outer then ms = policy.roundCooldownMs.toNat else ms ≤ policy.maxDelayMs.toNat}

theorem exponentialDelayMs_le (p : Platform) (policy : RetryPolicy) (attempt : Nat) :
    exponentialDelayMs p policy attempt ≤ policy.maxDelayMs.toNat := by
  unfold exponentialDelayMs
  split
  · exact Nat.zero_le _
  · exact Nat.min_le_right _ _

def delayBase (p : Platform) (policy : RetryPolicy) (attempt : Nat) : (outer : Bool) → DelayBase policy outer
  | true => ⟨policy.roundCooldownMs.toNat,rfl⟩
  | false => ⟨exponentialDelayMs p policy attempt,exponentialDelayMs_le p policy attempt⟩

/-- The base and its share of jitter, rounded down once. -/
def jittered (base bps sample : Nat) : Nat := base + base * bps * sample / (10000 * (UInt64.size - 1))

/-- The delay that is meant. -/
def exactDelay (policy : RetryPolicy) (base : Nat) (outer : Bool) (sample : UInt64) : Nat :=
  let delay := jittered base policy.jitterBps.toNat sample.toNat
  if outer then delay else min delay policy.maxDelayMs.toNat

/-- The most that a delay can be: the cooldown with all its jitter, or the cap of the backoff. -/
def delayBound (policy : RetryPolicy) (outer : Bool) : Nat :=
  if outer then policy.toRawRetryPolicy.cooldown else policy.maxDelayMs.toNat

section Rounding
variable {base bps sample more scale whole : Nat}

/-- A quotient by a product, taken apart by quotients and remainders by the factors. -/
theorem div_mul_split (scaled sample : Nat) (hscale : 0 < scale) (hwhole : 0 < whole) :
    scaled / scale * sample / whole +
        (scaled / scale * sample % whole * scale + scaled % scale * sample) / (whole * scale) =
      scaled * sample / (scale * whole) := by
  have hparts : scaled * sample = scaled / scale * sample / whole * (scale * whole) +
      (scaled / scale * sample % whole * scale + scaled % scale * sample) := by
    calc scaled * sample = (scale * (scaled / scale) + scaled % scale) * sample := by rw [Nat.div_add_mod]
      _ = scaled / scale * sample * scale + scaled % scale * sample := by ring
      _ = (whole * (scaled / scale * sample / whole) + scaled / scale * sample % whole) * scale +
            scaled % scale * sample := by rw [Nat.div_add_mod]
      _ = scaled / scale * sample / whole * (scale * whole) +
            (scaled / scale * sample % whole * scale + scaled % scale * sample) := by ring
  have hpos : 0 < scale * whole := Nat.mul_pos hscale hwhole
  rw [hparts,Nat.mul_comm whole scale,Nat.add_comm (_ * (scale * whole)),Nat.add_mul_div_right _ _ hpos]
  exact Nat.add_comm _ _

theorem jittered_mono (h : sample ≤ more) : jittered base bps sample ≤ jittered base bps more :=
  Nat.add_le_add_left (Nat.div_le_div_right (Nat.mul_le_mul_left _ h)) _

/-- A full sample adds the whole share. -/
theorem jittered_le (h : sample ≤ UInt64.size - 1) : jittered base bps sample ≤ base + base * bps / 10000 := by
  apply Nat.add_le_add_left
  calc base * bps * sample / (10000 * (UInt64.size - 1))
      ≤ base * bps * (UInt64.size - 1) / (10000 * (UInt64.size - 1)) :=
        Nat.div_le_div_right (Nat.mul_le_mul_left _ h)
    _ = base * bps / 10000 := Nat.mul_div_mul_right _ _ (by decide)

end Rounding

section Delay
variable {policy : RetryPolicy} {base : Nat} {outer : Bool} {sample : UInt64}

/-- What does not overflow goes on to the next operation. -/
theorem u128_bind {n : Nat} (h : n < 2 ^ 128) (next : Nat → Option Nat) : (u128 n >>= next) = next n := by
  rw [u128,if_pos h]
  rfl

theorem sample_le (sample : UInt64) : sample.toNat ≤ UInt64.size - 1 := Nat.le_sub_one_of_lt sample.toNat_lt

theorem jitterBps_le (policy : RetryPolicy) : policy.jitterBps.toNat ≤ 10000 := policy.inBounds.2.2.2.2.2

/-- The share of jitter without the sample is no more than the base. -/
theorem jitter_le_base (policy : RetryPolicy) (base : Nat) : base * policy.jitterBps.toNat / 10000 ≤ base := by
  calc base * policy.jitterBps.toNat / 10000 ≤ base * 10000 / 10000 :=
        Nat.div_le_div_right (Nat.mul_le_mul_left _ (jitterBps_le policy))
    _ = base := Nat.mul_div_cancel _ (by decide)

/-- The remainders stay small, so that their products do. -/
theorem remainders_lt {rest right whole : Nat} (hwhole : whole < 2 ^ 64) (hrest : rest < whole) (hright : right ≤ 10000 * whole) :
    rest * 10000 < 2 ^ 128 ∧ right < 2 ^ 128 ∧ rest * 10000 + right < 2 ^ 128 ∧ whole * 10000 < 2 ^ 128 := by
  omega

/-- No operation leaves 128 bits. -/
theorem localDelayMs_eq (policy : RetryPolicy) (hbase : base < UInt64.size) (outer : Bool) (sample : UInt64) :
    localDelayMs policy base outer sample = some (exactDelay policy base outer sample % UInt64.size) := by
  have hsample := sample_le sample
  have hscaled : base * policy.jitterBps.toNat ≤ (UInt64.size - 1) * 10000 :=
    Nat.mul_le_mul (Nat.le_sub_one_of_lt hbase) (jitterBps_le policy)
  have hproduct : base * policy.jitterBps.toNat / 10000 * sample.toNat ≤ (UInt64.size - 1) * (UInt64.size - 1) :=
    Nat.mul_le_mul ((jitter_le_base policy base).trans (Nat.le_sub_one_of_lt hbase)) hsample
  have hright : base * policy.jitterBps.toNat % 10000 * sample.toNat ≤ 10000 * (UInt64.size - 1) :=
    Nat.mul_le_mul (Nat.mod_lt _ (by decide)).le hsample
  obtain ⟨hleft,hright,hnumerator,hwhole⟩ := remainders_lt (by decide)
    (Nat.mod_lt (base * policy.jitterBps.toNat / 10000 * sample.toNat) (by decide)) hright
  have hjitter : base * policy.jitterBps.toNat * sample.toNat / (10000 * (UInt64.size - 1)) ≤ base := by
    have hbound := @jittered_le base policy.jitterBps.toNat sample.toNat hsample
    exact Nat.le_of_add_le_add_left (hbound.trans (Nat.add_le_add_left (jitter_le_base policy base) _))
  have hshare : base * policy.jitterBps.toNat * sample.toNat / (10000 * (UInt64.size - 1)) < 2 ^ 128 :=
    lt_of_le_of_lt hjitter (hbase.trans (by decide))
  have hdelay : base + base * policy.jitterBps.toNat * sample.toNat / (10000 * (UInt64.size - 1)) < 2 ^ 128 :=
    lt_of_le_of_lt (Nat.add_le_add_left hjitter base) (lt_trans (Nat.add_lt_add hbase hbase) (by decide))
  have hsplit := @div_mul_split 10000 (UInt64.size - 1) (base * policy.jitterBps.toNat) sample.toNat (by decide) (by decide)
  unfold localDelayMs
  rw [u128_bind (lt_of_le_of_lt hscaled hwhole),u128_bind (lt_of_le_of_lt hproduct (by decide)),u128_bind hleft,
    u128_bind hright,u128_bind hnumerator,u128_bind hwhole,hsplit,u128_bind hshare,u128_bind hdelay]
  rfl

theorem DelayBase.lt (base : DelayBase policy outer) : base.1 < UInt64.size := by
  obtain ⟨ms,hms⟩ := base
  cases outer with
  | true => exact lt_of_eq_of_lt hms policy.roundCooldownMs.toNat_lt
  | false => exact lt_of_le_of_lt hms policy.maxDelayMs.toNat_lt

theorem exactDelay_mono {more : UInt64} (h : sample ≤ more) :
    exactDelay policy base outer sample ≤ exactDelay policy base outer more := by
  have hjitter := @jittered_mono base policy.jitterBps.toNat _ _ (UInt64.le_iff_toNat_le.mp h)
  cases outer with
  | true => exact hjitter
  | false => exact min_le_min_right _ hjitter

theorem exactDelay_le (base : DelayBase policy outer) (sample : UInt64) :
    exactDelay policy base.1 outer sample ≤ delayBound policy outer := by
  obtain ⟨ms,hms⟩ := base
  cases outer with
  | true =>
    obtain rfl : ms = policy.roundCooldownMs.toNat := hms
    exact jittered_le (sample_le sample)
  | false => exact Nat.min_le_right _ _

theorem delayBound_lt (policy : RetryPolicy) (outer : Bool) : delayBound policy outer < UInt64.size := by
  cases outer with
  | true => exact policy.cooldown
  | false => exact policy.maxDelayMs.toNat_lt

/-- The delay in nanoseconds is what the arithmetic gives, without its overflow checks. -/
theorem localDelay_eq (p : Platform) (policy : RetryPolicy) (attempt : Nat) (outer : Bool) (sample : UInt64) :
    localDelay p policy attempt outer sample = millis (exactDelay policy (delayBase p policy attempt outer).1 outer sample) := by
  have hlt := lt_of_le_of_lt (exactDelay_le (delayBase p policy attempt outer) sample) (delayBound_lt policy outer)
  cases outer with
  | true =>
    rw [localDelay,div_mul_split _ _ (by decide) (by decide)]
    exact congrArg millis (Nat.mod_eq_of_lt hlt)
  | false =>
    rw [localDelay,div_mul_split _ _ (by decide) (by decide)]
    rfl

/-- The delay before a retry is the exact one: nothing overflows, no bit is lost, more of a sample
never shortens it, and it stays within what the policy was checked for. -/
theorem localDelay_exact (p : Platform) (policy : RetryPolicy) (attempt : Nat) (outer : Bool)
    (base : DelayBase policy outer) (sample : UInt64) :
    localDelayMs policy base.1 outer sample = some (exactDelay policy base.1 outer sample) ∧
      (∀ more, sample ≤ more → exactDelay policy base.1 outer sample ≤ exactDelay policy base.1 outer more) ∧
      exactDelay policy base.1 outer sample ≤ delayBound policy outer ∧ delayBound policy outer < UInt64.size ∧
      localDelay p policy attempt outer sample =
        millis (exactDelay policy (delayBase p policy attempt outer).1 outer sample) := by
  have hbound := exactDelay_le base sample
  have hsize := delayBound_lt policy outer
  refine ⟨?_,fun _ => exactDelay_mono,hbound,hsize,localDelay_eq p policy attempt outer sample⟩
  rw [localDelayMs_eq policy base.lt,Nat.mod_eq_of_lt (lt_of_le_of_lt hbound hsize)]

end Delay
end Nefor.Provider
