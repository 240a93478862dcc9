/-
# Numerals in configuration text

A count is written in decimal digits, with an optional plus sign in front and
any number of leading zeros. A numeral at or past the limit is refused.

Key definitions: `Text.natural?`, `Text.lowered`.
-/

namespace FencedLog
namespace Text

/-- One past the largest 64-bit count. -/
def wordLimit : Nat := 0x10000000000000000

/-- The digit `c` stands for, if it is one of the ten ASCII digits. -/
def digit? (c : Char) : Option Nat :=
  if '0' ≤ c ∧ c ≤ '9' then some (c.toNat - '0'.toNat) else none

/-- The value of a run of digits read onto `acc`. -/
def digitsOnto (acc : Nat) : List Char → Option Nat
  | [] => some acc
  | c :: cs => match digit? c with
    | some d => digitsOnto (acc * 10 + d) cs
    | none => none

def digits? : List Char → Option Nat
  | [] => none
  | cs => digitsOnto 0 cs

/-- The number a text writes, if it is below `limit`. -/
def natural? (limit : Nat) (s : String) : Option Nat :=
  let value := match s.toList with
    | '+' :: cs => digits? cs
    | cs => digits? cs
  value.filter (· < limit)

/-- The text with its ASCII capitals made small; all other characters stay. -/
def lowered (s : String) : String := s.map Char.toLower

end Text
end FencedLog
