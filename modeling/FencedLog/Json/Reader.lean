/-
# Reading a JSON text

The tokens are read one at a time onto a stack of the arrays and objects that
are still open, so a value may be nested to any depth.

Key definitions: `Reader.step`, `Json.ofText?`.
-/
import FencedLog.Json.Token

namespace FencedLog
namespace Json

/-- An array or object that is still open, its parts last one first. -/
inductive Frame where
  | items (done : List Json)
  | fields (done : List (Option String × Json))
  /-- An object whose next value belongs to `key`. -/
  | awaiting (done : List (Option String × Json)) (key : Option String)

/-- What must come next. -/
inductive Goal where
  | value
  /-- The first item of an array, or its end. -/
  | firstItem
  /-- The first key of an object, or its end. -/
  | firstKey
  | key
  | colon
  /-- A comma, or the end of what is open. -/
  | next
  /-- Nothing more: the text's value is complete. -/
  | nothing (v : Json)

/-- What is open, innermost first, and what must come next. -/
structure Reader where
  frames : List Frame
  goal : Goal

namespace Reader

/-- A value is complete: it takes its place in what is open. -/
def complete (v : Json) : List Frame → Option Reader
  | [] => some ⟨[], .nothing v⟩
  | .items done :: frames => some ⟨.items (v :: done) :: frames, .next⟩
  | .awaiting done key :: frames => some ⟨.fields ((key, v) :: done) :: frames, .next⟩
  | .fields _ :: _ => none

/-- A value begins, or is a single token. -/
def begin (frames : List Frame) : Token → Option Reader
  | .atom v => complete v frames
  | .mark c =>
    if c == '[' then some ⟨.items [] :: frames, .firstItem⟩
    else if c == '\x7b' then some ⟨.fields [] :: frames, .firstKey⟩
    else none

/-- A key of the innermost object. -/
def takeKey (frames : List Frame) (t : Token) : Option Reader :=
  match frames, t with
  | .fields done :: frames, .atom (.str s) => some ⟨.awaiting done (some s) :: frames, .colon⟩
  | .fields done :: frames, .atom .torn => some ⟨.awaiting done none :: frames, .colon⟩
  | _, _ => none

/-- The innermost array or object ends. -/
def close (frames : List Frame) (c : Char) : Option Reader :=
  match frames with
  | .items done :: frames => if c == ']' then complete (arr done.reverse) frames else none
  | .fields done :: frames => if c == '\x7d' then complete (obj done.reverse) frames else none
  | _ => none

/-- One token. -/
def step (r : Reader) (t : Token) : Option Reader :=
  match r.goal, t with
  | .value, t => begin r.frames t
  | .firstItem, .mark ']' => close r.frames ']'
  | .firstItem, t => begin r.frames t
  | .firstKey, .mark '\x7d' => close r.frames '\x7d'
  | .firstKey, t => takeKey r.frames t
  | .key, t => takeKey r.frames t
  | .colon, .mark ':' => some ⟨r.frames, .value⟩
  | .next, .mark ',' =>
    match r.frames with
    | .items _ :: _ => some ⟨r.frames, .value⟩
    | .fields _ :: _ => some ⟨r.frames, .key⟩
    | _ => none
  | .next, .mark c => close r.frames c
  | _, _ => none

def run (r : Reader) : List Token → Option Reader
  | [] => some r
  | t :: ts => match step r t with
    | some q => run q ts
    | none => none

end Reader

/-- The value of a whole token list. -/
def ofTokens? (ts : List Token) : Option Json :=
  (Reader.run ⟨[], .value⟩ ts).bind fun r => match r.goal with
    | .nothing v => some v
    | _ => none

/-- The value a text stands for; nothing but blanks may surround it. -/
def ofText? (s : String) : Option Json := (Token.ofText? s).bind ofTokens?

end Json
end FencedLog
