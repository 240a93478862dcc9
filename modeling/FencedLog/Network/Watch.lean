/-
# Watches

A watch looks for expired transactions at its start and then at every interval
after it. Moments are whole milliseconds: an interval ends with the millisecond
in which it ends, and looks that fall on one moment are one look.

Key definitions: `Watch`, `Watch.after`.
Key theorem: `Watch.lt_after`.
-/
import FencedLog.Span

namespace FencedLog

/-- A watch over the transactions' timeouts: it looks for expired ones at its
start and at every interval after it. -/
structure Watch where
  start : Nat
  interval : Span
  /-- When it looks next. -/
  moment : Nat
  /-- Watches and flights are numbered in the order in which their waits began. -/
  order : Nat

namespace Watch

/-- The first moment after `now` at which the watch looks. -/
def after (v : Watch) (now : Nat) : Nat :=
  let passed := (Span.ofMillis (now - v.start)).nanos / v.interval.nanos
  v.start + Span.ticks ⟨(passed + 1) * v.interval.nanos⟩

/-- The next look is always still to come, however short the interval. -/
theorem lt_after (v : Watch) (now : Nat) (h : 0 < v.interval.nanos) : now < v.after now := by
  have hd := Nat.lt_mul_div_succ (Span.ofMillis (now - v.start)).nanos h
  rw [Nat.mul_comm] at hd
  simp only [Span.ofMillis, Span.perMilli] at hd
  simp only [after, Span.ticks, Span.ofMillis, Span.perMilli]
  omega

end Watch
end FencedLog
