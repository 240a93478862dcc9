/-
# Spans of time

Timeouts, delays and waits are whole numbers of nanoseconds. A span is written
in the largest unit that gives it a whole part: `1.5s`, `20ms`, `999.999µs`,
`0ns`.

Key definitions: `Span`, `Span.ofMillis`, `Span.ofParts`, `Span.text`.
Key theorem: `Span.ofParts_parts`.
-/

namespace FencedLog

/-- A length of time. -/
structure Span where
  nanos : Nat
deriving DecidableEq

namespace Span

def perSecond : Nat := 1000000000

def perMilli : Nat := 1000000

def perMicro : Nat := 1000

def zero : Span := ⟨0⟩

def ofMillis (n : Nat) : Span := ⟨n * perMilli⟩

def ofSecs (n : Nat) : Span := ⟨n * perSecond⟩

/-- Whole seconds and nanoseconds together; nanoseconds past a second carry. -/
def ofParts (secs nanos : Nat) : Span := ⟨secs * perSecond + nanos⟩

/-- The whole seconds. -/
def secs (s : Span) : Nat := s.nanos / perSecond

/-- The nanoseconds past the whole seconds. -/
def subsec (s : Span) : Nat := s.nanos % perSecond

/-- The whole milliseconds. -/
def millis (s : Span) : Nat := s.nanos / perMilli

/-- The milliseconds of a clock that cannot stop between two of them. -/
def ticks (s : Span) : Nat := (s.nanos + (perMilli - 1)) / perMilli

def isZero (s : Span) : Bool := s.nanos == 0

def add (a b : Span) : Span := ⟨a.nanos + b.nanos⟩

protected def min (a b : Span) : Span := ⟨Nat.min a.nanos b.nanos⟩

instance : LE Span := ⟨fun a b => a.nanos ≤ b.nanos⟩

instance : LT Span := ⟨fun a b => a.nanos < b.nanos⟩

instance (a b : Span) : Decidable (a ≤ b) := inferInstanceAs (Decidable (a.nanos ≤ b.nanos))

instance (a b : Span) : Decidable (a < b) := inferInstanceAs (Decidable (a.nanos < b.nanos))

theorem ofParts_parts (s : Span) : ofParts s.secs s.subsec = s := by
  cases s
  simp [ofParts, secs, subsec, Nat.div_add_mod']

theorem min_le_right (a b : Span) : a.min b ≤ b := Nat.min_le_right _ _

/-! ### The written form -/

/-- The digits after the point of a part of a unit that has `width` zeros,
without trailing zeros. -/
def fraction (width part : Nat) : List Char :=
  let digits := (toString part).toList
  let padded := List.replicate (width - digits.length) '0' ++ digits
  match (padded.reverse.dropWhile (· == '0')).reverse with
  | [] => []
  | ds => '.' :: ds

/-- `count` nanoseconds in a unit of `size` of them, which is a one with `width`
zeros. -/
def inUnit (count size width : Nat) (unit : String) : String :=
  toString (count / size) ++ String.ofList (fraction width (count % size)) ++ unit

/-- The span in the largest unit of s, ms, µs and ns that gives it a whole
part, with no trailing zeros after the point. -/
def text (s : Span) : String :=
  if perSecond ≤ s.nanos then inUnit s.nanos perSecond 9 "s"
  else if perMilli ≤ s.nanos then inUnit s.nanos perMilli 6 "ms"
  else if perMicro ≤ s.nanos then inUnit s.nanos perMicro 3 "µs"
  else inUnit s.nanos 1 0 "ns"

end Span
end FencedLog
