/-
# Settings from properties

Properties are keys with text values. Seven keys are known, others are passed
over. Values lose the blanks at their ends before they are read.

Key definitions: `Properties.set`, `SessionConfig.ofProperties`,
`Isolation.ofText`.
-/
import FencedLog.Session.Config
import FencedLog.Text.Numeral

namespace FencedLog

/-- The isolation a text names, in whatever case, or what is wrong with it. -/
def Isolation.ofText (s : String) : Except String Isolation :=
  let s := Text.lowered s
  match Isolation.names.lookup s with
  | some isolation => .ok isolation
  | none => .error s!"unknown isolation level '{s}'"

namespace Properties

/-- The items between commas, without blanks at their ends and without empty
ones. -/
def items (s : String) : List String :=
  ((s.toList.splitOn ',').map fun cs => Text.trim (String.ofList cs)).filter (!·.isEmpty)

/-- A 64-bit count. -/
def count (key value : String) : Except SessionError Nat :=
  match Text.natural? Text.wordLimit value with
  | some n => .ok n
  | none => .error (.config s!"invalid value '{value}' for {key}")

/-- One property, its value without blanks at the ends. -/
def set (c : SessionConfig) (key value : String) : Except SessionError SessionConfig :=
  if key = "transactional.id" then .ok { c with txid := value }
  else if key = "bootstrap.servers" then .ok { c with servers := items value }
  else if key = "transaction.timeout.ms" then
    (count key value).map fun n => { c with transactionTimeout := .ofMillis n }
  else if key = "request.timeout.ms" then
    (count key value).map fun n => { c with requestTimeout := .ofMillis n }
  else if key = "batch.size" then (count key value).map fun n => { c with maxBatch := n }
  else if key = "delivery.queue.capacity" then
    (count key value).map fun n => { c with queueCapacity := n }
  else if key = "isolation.level" then
    match Isolation.ofText value with
    | .ok isolation => .ok { c with isolation := isolation }
    | .error reason => .error (.config reason)
  else .ok c

/-- All properties, in the order given; the first fault ends it. -/
def setAll (c : SessionConfig) : List (String × String) → Except SessionError SessionConfig
  | [] => .ok c
  | (key, value) :: rest =>
    match set c key (Text.trim value) with
    | .ok c => setAll c rest
    | .error e => .error e

end Properties

/-- The settings that properties describe, over the defaults. -/
def SessionConfig.ofProperties (props : List (String × String)) :
    Except SessionError SessionConfig :=
  match Properties.setAll .default props with
  | .error e => .error e
  | .ok c => c.validate.map fun _ => c

end FencedLog
