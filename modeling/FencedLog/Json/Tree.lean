/-
# JSON values

The value a JSON text stands for, as far as this library reads it. Objects
keep their fields in written order, repeated keys included. Two forms are kept
only so that they can be passed over: a number that is not a plain integer,
and a string that holds half of a surrogate pair.

Key definitions: `Json`, `Json.object`.
-/

namespace FencedLog

/-- A JSON value. A key is `none` when it holds half of a surrogate pair. -/
inductive Json where
  | null
  | bool (b : Bool)
  | int (n : Int)
  /-- A number with a fraction or an exponent, or minus zero. -/
  | real
  | str (s : String)
  /-- A string that holds half of a surrogate pair. -/
  | torn
  | arr (items : List Json)
  | obj (fields : List (Option String × Json))
deriving Inhabited

namespace Json

/-- An object with the given fields. -/
def object (fields : List (String × Json)) : Json := obj (fields.map fun (k, v) => (some k, v))

def nat (n : Nat) : Json := int n

def ofOption {α : Type} (f : α → Json) : Option α → Json
  | none => null
  | some a => f a

end Json
end FencedLog
