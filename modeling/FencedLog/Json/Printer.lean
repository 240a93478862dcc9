/-
# Writing a JSON text

The compact form: no blanks, fields in order. In a string, the quote, the
backslash and the control characters are escaped, five of those by a letter
and the rest by four hexadecimal digits; every other character stands for
itself.

Key definitions: `Json.escaped`, `Json.text`.
-/
import FencedLog.Json.Tree

namespace FencedLog
namespace Json

/-- The hexadecimal digit of `n % 16`. -/
def hexDigit (n : Nat) : Char := ("0123456789abcdef".toList).getD (n % 16) '0'

/-- A character of a string as it is written. -/
def escaped (c : Char) : List Char :=
  if c == '"' then ['\\', '"']
  else if c == '\\' then ['\\', '\\']
  else if c == '\x08' then ['\\', 'b']
  else if c == '\x0c' then ['\\', 'f']
  else if c == '\n' then ['\\', 'n']
  else if c == '\r' then ['\\', 'r']
  else if c == '\t' then ['\\', 't']
  else if c.toNat < 0x20 then ['\\', 'u', '0', '0', hexDigit (c.toNat / 16), hexDigit c.toNat]
  else [c]

/-- A string between quotes, in front of `rest`. -/
def quoteOnto (s : String) (rest : List Char) : List Char :=
  '"' :: s.toList.foldr (fun c rest => escaped c ++ rest) ('"' :: rest)

def keyOnto (key : Option String) (rest : List Char) : List Char :=
  match key with
  | some s => quoteOnto s rest
  | none => "\"\\ud800\"".toList ++ rest

mutual

/-- The value's text in front of `rest`. -/
def writeOnto : Json → List Char → List Char
  | .null, rest => "null".toList ++ rest
  | .bool true, rest => "true".toList ++ rest
  | .bool false, rest => "false".toList ++ rest
  | .int n, rest => (toString n).toList ++ rest
  | .real, rest => "-0".toList ++ rest
  | .str s, rest => quoteOnto s rest
  | .torn, rest => keyOnto none rest
  | .arr items, rest => '[' :: itemsOnto items (']' :: rest)
  | .obj fields, rest => '\x7b' :: fieldsOnto fields ('\x7d' :: rest)

/-- Items with commas between them. -/
def itemsOnto : List Json → List Char → List Char
  | [], rest => rest
  | [v], rest => writeOnto v rest
  | v :: w :: vs, rest => writeOnto v (',' :: itemsOnto (w :: vs) rest)

/-- Fields with commas between them. -/
def fieldsOnto : List (Option String × Json) → List Char → List Char
  | [], rest => rest
  | [(k, v)], rest => keyOnto k (':' :: writeOnto v rest)
  | (k, v) :: f :: fs, rest => keyOnto k (':' :: writeOnto v (',' :: fieldsOnto (f :: fs) rest))

end

/-- The compact text of a value. -/
def text (v : Json) : String := String.ofList (writeOnto v [])

end Json
end FencedLog
