/-
# The tokens of a JSON text

A text is read one character at a time by an automaton. Only the four blanks
of the format may stand between tokens, a string holds no control characters,
and a number follows the format's grammar (no leading zeros, digits on both
sides of a point).

Key definitions: `Token`, `Lexer.step`, `Token.ofText?`.
-/
import FencedLog.Json.Tree
import FencedLog.Text.Numeral

namespace FencedLog
namespace Json

/-- A mark (one of `{ } [ ] : ,`) or a value without parts. -/
inductive Token where
  | mark (c : Char)
  | atom (v : Json)

/-- How far a number has been read. -/
inductive Stage where
  | minus
  | zero
  | whole
  | point
  | fraction
  | exponent
  | sign
  | power

/-- What the automaton is inside of. -/
inductive Mode where
  | between
  /-- The letters of `null`, `true` or `false` that must still come. -/
  | word (left : List Char) (value : Json)
  | number (negative : Bool) (value : Nat) (stage : Stage)
  /-- A string: its code points so far, last one first. -/
  | text (points : List Nat)
  | escape (points : List Nat)
  /-- A four-digit escape: its digits so far and how many are left. -/
  | hex (points : List Nat) (value : Nat) (left : Nat)

/-- The automaton's state: the tokens it has finished, last one first. -/
structure Lexer where
  mode : Mode
  tokens : List Token

def isSpace (c : Char) : Bool := c == ' ' || c == '\t' || c == '\n' || c == '\r'

def isMark (c : Char) : Bool :=
  c == '\x7b' || c == '\x7d' || c == '[' || c == ']' || c == ':' || c == ','

def hexDigit? (c : Char) : Option Nat :=
  if let some d := Text.digit? c then some d
  else if 'a' ≤ c ∧ c ≤ 'f' then some (c.toNat - 'a'.toNat + 10)
  else if 'A' ≤ c ∧ c ≤ 'F' then some (c.toNat - 'A'.toNat + 10)
  else none

def isHighHalf (n : Nat) : Bool := 0xD800 ≤ n && n < 0xDC00

def isLowHalf (n : Nat) : Bool := 0xDC00 ≤ n && n < 0xE000

/-- The characters of a string's code points. A high half must be followed by
a low half, and the two make one character; any other half tears the string. -/
def assemble : List Nat → Option (List Char)
  | [] => some []
  | [n] => if isHighHalf n || isLowHalf n then none else some [Char.ofNat n]
  | n :: m :: rest =>
    if isHighHalf n then
      if isLowHalf m then
        (assemble rest).map (Char.ofNat (0x10000 + (n - 0xD800) * 0x400 + (m - 0xDC00)) :: ·)
      else none
    else if isLowHalf n then none
    else (assemble (m :: rest)).map (Char.ofNat n :: ·)

/-- The value of a finished string, its code points last one first. -/
def ofPoints (points : List Nat) : Json :=
  match assemble points.reverse with
  | some cs => str (String.ofList cs)
  | none => torn

/-- The value of a number that ends here, if it may. -/
def ofNumber? (negative : Bool) (value : Nat) : Stage → Option Json
  | .zero => some (if negative then real else int 0)
  | .whole => some (int (if negative then -(value : Int) else value))
  | .fraction | .power => some real
  | _ => none

/-- The next stage of a number, and its value so far, if `c` goes on with it. -/
def extend? (value : Nat) (stage : Stage) (c : Char) : Option (Nat × Stage) :=
  match stage, Text.digit? c with
  | .minus, some 0 => some (0, .zero)
  | .minus, some d => some (d, .whole)
  | .whole, some d => some (value * 10 + d, .whole)
  | .point, some _ | .fraction, some _ => some (value, .fraction)
  | .exponent, some _ | .sign, some _ | .power, some _ => some (value, .power)
  | .zero, none | .whole, none =>
    if c == '.' then some (value, .point)
    else if c == 'e' || c == 'E' then some (value, .exponent)
    else none
  | .fraction, none => if c == 'e' || c == 'E' then some (value, .exponent) else none
  | .exponent, none => if c == '+' || c == '-' then some (value, .sign) else none
  | _, _ => none

/-- The character a short escape stands for. -/
def shortEscape? (c : Char) : Option Char :=
  if c == '"' || c == '\\' || c == '/' then some c
  else if c == 'b' then some '\x08'
  else if c == 'f' then some '\x0c'
  else if c == 'n' then some '\n'
  else if c == 'r' then some '\r'
  else if c == 't' then some '\t'
  else none

namespace Lexer

/-- The first character of a token, or a blank. -/
def start (tokens : List Token) (c : Char) : Option Lexer :=
  if isSpace c then some ⟨.between, tokens⟩
  else if isMark c then some ⟨.between, .mark c :: tokens⟩
  else if c == '"' then some ⟨.text [], tokens⟩
  else if c == '-' then some ⟨.number true 0 .minus, tokens⟩
  else if c == 'n' then some ⟨.word ['u', 'l', 'l'] null, tokens⟩
  else if c == 't' then some ⟨.word ['r', 'u', 'e'] (bool true), tokens⟩
  else if c == 'f' then some ⟨.word ['a', 'l', 's', 'e'] (bool false), tokens⟩
  else (extend? 0 .minus c).map fun (value, stage) => ⟨.number false value stage, tokens⟩

/-- One character. -/
def step (s : Lexer) (c : Char) : Option Lexer :=
  match s.mode with
  | .between => start s.tokens c
  | .word [] _ => none
  | .word [last] v => if c == last then some ⟨.between, .atom v :: s.tokens⟩ else none
  | .word (next :: left) v => if c == next then some ⟨.word left v, s.tokens⟩ else none
  | .number negative value stage =>
    match extend? value stage c with
    | some (value, stage) => some ⟨.number negative value stage, s.tokens⟩
    | none => (ofNumber? negative value stage).bind fun v => start (.atom v :: s.tokens) c
  | .text points =>
    if c == '"' then some ⟨.between, .atom (ofPoints points) :: s.tokens⟩
    else if c == '\\' then some ⟨.escape points, s.tokens⟩
    else if c.toNat < 0x20 then none
    else some ⟨.text (c.toNat :: points), s.tokens⟩
  | .escape points =>
    if c == 'u' then some ⟨.hex points 0 4, s.tokens⟩
    else (shortEscape? c).map fun e => ⟨.text (e.toNat :: points), s.tokens⟩
  | .hex points value left =>
    (hexDigit? c).map fun d =>
      if left ≤ 1 then ⟨.text ((value * 16 + d) :: points), s.tokens⟩
      else ⟨.hex points (value * 16 + d) (left - 1), s.tokens⟩

def run (s : Lexer) : List Char → Option Lexer
  | [] => some s
  | c :: cs => match step s c with
    | some t => run t cs
    | none => none

/-- The tokens, first one first, if the text may end here. -/
def finish (s : Lexer) : Option (List Token) :=
  match s.mode with
  | .between => some s.tokens.reverse
  | .number negative value stage =>
    (ofNumber? negative value stage).map fun v => (.atom v :: s.tokens).reverse
  | _ => none

theorem run_append (s : Lexer) : ∀ cs ds, run s (cs ++ ds) = (run s cs).bind (run · ds)
  | [], ds => rfl
  | c :: cs, ds => by
    simp only [List.cons_append, run]
    cases step s c with
    | none => rfl
    | some t => exact run_append t cs ds

end Lexer

/-- The tokens of a text. -/
def Token.ofText? (s : String) : Option (List Token) :=
  (Lexer.run ⟨.between, []⟩ s.toList).bind Lexer.finish

end Json
end FencedLog
