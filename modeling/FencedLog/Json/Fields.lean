/-
# The fields of a record in JSON

A record is an object with its fields by name, or an array with its fields in
order. A field may stand only once. Fields the record does not have are passed
over, unless the record is closed. A key must be a whole string.

Key definitions: `Fields`, `Json.fields?`, `Fields.required`,
`Fields.nullable`, `Fields.withDefault`.
-/
import FencedLog.Json.Tree
import FencedLog.Span
import FencedLog.Text.Numeral

namespace FencedLog
namespace Json

/-- The known fields a record was given, and whether it was an object. -/
structure Fields where
  byName : Bool
  given : List (String × Json)

namespace Fields

def find (name : String) : List (String × Json) → Option Json
  | [] => none
  | (k, v) :: rest => if k = name then some v else find name rest

def get? (f : Fields) (name : String) : Option Json := find name f.given

/-- A field that must be given. -/
def required {α : Type} (f : Fields) (name : String) (read : Json → Option α) : Option α :=
  (f.get? name).bind read

/-- A field that may be null. An object may leave it out, an array may not. -/
def nullable {α : Type} (f : Fields) (name : String) (read : Json → Option α) : Option (Option α) :=
  match f.get? name with
  | some .null => some none
  | some v => (read v).map some
  | none => if f.byName then some none else none

/-- A field that may be left out. -/
def withDefault {α : Type} (f : Fields) (name : String) (read : Json → Option α) (value : α) :
    Option α :=
  match f.get? name with
  | some v => read v
  | none => some value

end Fields

/-- The given fields of an object, with each known name at most once. -/
def collect (names : List String) (closed : Bool) :
    List (Option String × Json) → Option (List (String × Json))
  | [] => some []
  | (none, _) :: _ => none
  | (some k, v) :: rest => do
    let given ← collect names closed rest
    if names.contains k then
      if (Fields.find k given).isSome then none else some ((k, v) :: given)
    else if closed then none
    else some given

/-- The fields of a record with the given names. -/
def fields? (names : List String) (closed : Bool) : Json → Option Fields
  | .obj fields => (collect names closed fields).map (⟨true, ·⟩)
  | .arr items => if items.length ≤ names.length then some ⟨false, names.zip items⟩ else none
  | _ => none

/-! ### Values without parts -/

def asString? : Json → Option String
  | .str s => some s
  | _ => none

def asBool? : Json → Option Bool
  | .bool b => some b
  | _ => none

/-- An integer from `low` to `high`, the ends included. -/
def asInt? (low high : Int) : Json → Option Int
  | .int n => if low ≤ n ∧ n ≤ high then some n else none
  | _ => none

/-- A count below `limit`. -/
def asNat? (limit : Nat) : Json → Option Nat
  | .int (.ofNat n) => if n < limit then some n else none
  | _ => none

def asList? {α : Type} (read : Json → Option α) : Json → Option (List α)
  | .arr items => items.mapM read
  | _ => none

/-- One of a list of names, written as a string or as an object whose only
field has that name and is null. -/
def asName? {α : Type} (names : List (String × α)) : Json → Option α
  | .str s => names.lookup s
  | .obj [(some s, .null)] => names.lookup s
  | _ => none

/-! ### Spans -/

def ofSpan (s : Span) : Json := object [("secs", nat s.secs), ("nanos", nat s.subsec)]

/-- A span is a closed record of seconds and nanoseconds. Nanoseconds past a
second carry, as long as the seconds stay a 64-bit count. -/
def asSpan? (v : Json) : Option Span := do
  let f ← fields? ["secs", "nanos"] true v
  let secs ← f.required "secs" (asNat? Text.wordLimit)
  let nanos ← f.required "nanos" (asNat? 0x100000000)
  let s := Span.ofParts secs nanos
  if s.secs < Text.wordLimit then some s else none

end Json
end FencedLog
