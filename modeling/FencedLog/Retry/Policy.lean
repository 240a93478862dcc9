/-
# Retry policies

Between two tries one waits, longer each time: the first wait, times a power
of the multiplier, in whole milliseconds, and never more than the longest
wait. The multiplier may be any floating-point number.

Key definitions: `RetryPolicy`, `RetryPolicy.power`, `RetryPolicy.backoff`,
`RetryPolicy.jittered`.
Key theorem: `RetryPolicy.backoff_le`.
-/
import FencedLog.Span

namespace FencedLog

structure RetryPolicy where
  /-- How often a failed try is repeated. -/
  maxRetries : Nat
  initial : Span
  longest : Span
  multiplier : Float

namespace RetryPolicy

/-- Five retries, from a tenth of a second on, doubling up to half a minute. -/
def default : RetryPolicy := ⟨5, .ofMillis 100, .ofSecs 30, 2⟩

/-- `r * a ^ n` by squaring: every bit of `n` costs at most one product of
each kind, and products are rounded as they come. -/
def powerOnto (r a : Float) (n : Nat) : Float :=
  let r := if n % 2 = 1 then r * a else r
  if n / 2 = 0 then r else powerOnto r (a * a) (n / 2)
termination_by n

/-- `a ^ n`; for a negative `n` the reciprocal of the positive power. -/
def power (a : Float) (n : Int) : Float :=
  let r := powerOnto 1 a n.natAbs
  if n < 0 then 1 / r else r

/-- The exponent of a try: a 32-bit number with a sign, so it wraps. -/
def exponent (attempt : Nat) : Int := Int.bmod attempt 0x100000000

/-- The wait after try number `attempt`, counted from zero. Milliseconds are
cut to a 64-bit count. -/
def backoff (p : RetryPolicy) (attempt : Nat) : Span :=
  let millis := Float.ofScientific p.initial.millis false 0 * power p.multiplier (exponent attempt)
  (Span.ofMillis millis.toUInt64.toNat).min p.longest

/-- The wait after a try, made shorter or longer by chance: from three quarters
of it, for the share 0, to five quarters, for the share 1. -/
def jittered (p : RetryPolicy) (share : Float) (attempt : Nat) : Span :=
  let millis := Float.ofScientific (p.backoff attempt).millis false 0 * (0.75 + share * 0.5)
  Span.ofMillis millis.toUInt64.toNat

/-- No wait is longer than the longest one. -/
theorem backoff_le (p : RetryPolicy) (attempt : Nat) : p.backoff attempt ≤ p.longest :=
  Span.min_le_right _ _

end RetryPolicy
end FencedLog
