/-
# The partition of a key

Records with a key go to the partition that the key's hash names: SipHash with
two rounds per word and four at the end, under the zero key, over the key's
length (eight bytes, lowest first) and the key, modulo the partition count.

Key definitions: `KeyHash.hash`, `KeyHash.partitionOf`.
-/
import FencedLog.Record.Basic

namespace FencedLog
namespace KeyHash

/-- The four words of the state. -/
structure State where
  a : UInt64
  b : UInt64
  c : UInt64
  d : UInt64

def rotate (x : UInt64) (n : UInt64) : UInt64 := (x <<< n) ||| (x >>> (64 - n))

/-- The state under the zero key. -/
def initial : State :=
  ⟨0x736f6d6570736575, 0x646f72616e646f6d, 0x6c7967656e657261, 0x7465646279746573⟩

def round (s : State) : State :=
  let a := s.a + s.b
  let b := rotate s.b 13 ^^^ a
  let a := rotate a 32
  let c := s.c + s.d
  let d := rotate s.d 16 ^^^ c
  let a := a + d
  let d := rotate d 21 ^^^ a
  let c := c + b
  let b := rotate b 17 ^^^ c
  let c := rotate c 32
  ⟨a, b, c, d⟩

/-- A word is mixed in by two rounds. -/
def absorb (s : State) (word : UInt64) : State :=
  let s := round (round { s with d := s.d ^^^ word })
  { s with a := s.a ^^^ word }

/-- The word of up to eight bytes, lowest first. -/
def word : List UInt8 → UInt64
  | [] => 0
  | x :: xs => x.toUInt64 ||| (word xs <<< 8)

/-- All bytes, eight at a time; the last word ends in the low byte of `length`. -/
def absorbAll (length : Nat) (s : State) : List UInt8 → State
  | x0 :: x1 :: x2 :: x3 :: x4 :: x5 :: x6 :: x7 :: xs =>
    absorbAll length (absorb s (word [x0, x1, x2, x3, x4, x5, x6, x7])) xs
  | xs => absorb s (word xs ||| ((UInt64.ofNat length) <<< 56))

def finish (s : State) : UInt64 :=
  let s := round (round (round (round { s with c := s.c ^^^ 0xff })))
  s.a ^^^ s.b ^^^ s.c ^^^ s.d

/-- The lowest bytes of a number, lowest first. -/
def lowBytes : Nat → Nat → List UInt8
  | 0, _ => []
  | left + 1, n => UInt8.ofNat n :: lowBytes left (n / 256)

/-- The hash of a key. -/
def hash (key : Bytes) : UInt64 :=
  finish (absorbAll (key.size + 8) initial (lowBytes 8 key.size ++ key.toList))

/-- The partition of a key among `count` partitions. -/
def partitionOf (key : Bytes) (count : Nat) : Nat := (hash key).toNat % count

end KeyHash
end FencedLog
