/-
# Why a record was not acknowledged

Every error has a class, which says how to react: try again, give up, or mend
the program. An error that shows that the identity has lost its authority is
terminal: no later record of the session can be delivered.

Key definitions: `ErrorClass`, `DeliveryError`, `DeliveryError.ofBroker`,
`DeliveryError.isTerminal`.
Key theorem: `DeliveryError.isTerminal_ofBroker`.
-/
import FencedLog.Broker.Error
import FencedLog.Producer.Identity

namespace FencedLog

/-- How to react to an error. -/
inductive ErrorClass where
  /-- The same may succeed later. -/
  | retriable
  /-- It never will. -/
  | fatal
  /-- The call or its settings were wrong. -/
  | programmer
deriving DecidableEq

inductive DeliveryError where
  /-- A newer identity of the transactional id exists. -/
  | fenced (txid : String) (producer epoch : Int)
  | recordTooLarge (size max : Nat)
  | unknownPartition (topic : String) (partition : Int)
  /-- The broker was not reached, or its answer was not. -/
  | transport (e : BrokerError)
  | rejected (e : BrokerError)
  /-- The session closed before the record was acknowledged. -/
  | abandoned
deriving DecidableEq

/-- The wording of a fenced identity. -/
def fencedMessage (txid : String) (producer epoch : Int) : String :=
  s!"Producer fenced: transactional id '{txid}' (producer {producer}, epoch {epoch})"
    ++ " has been superseded"

namespace DeliveryError

/-- What a refusal means for the records of a request made as `id`. -/
def ofBroker (txid : String) (id : Identity) : BrokerError → DeliveryError
  | .fenced .. => fenced txid id.producer id.epoch
  | .recordTooLarge size max => recordTooLarge size max
  | .unknownPartition topic partition => unknownPartition topic partition
  | e => if e.isRetriable then transport e else rejected e

def errorClass : DeliveryError → ErrorClass
  | transport _ => .retriable
  | fenced .. | rejected _ | abandoned => .fatal
  | recordTooLarge .. | unknownPartition .. => .programmer

/-- Whether no later record can be delivered either. -/
def isTerminal : DeliveryError → Bool
  | fenced .. => true
  | rejected e => e.isFencing
  | _ => false

def message : DeliveryError → String
  | fenced txid producer epoch => fencedMessage txid producer epoch
  | recordTooLarge size max => (BrokerError.recordTooLarge size max).message
  | unknownPartition topic partition => (BrokerError.unknownPartition topic partition).message
  | transport e => "Transport error: " ++ e.message
  | rejected e => "Broker rejected records: " ++ e.message
  | abandoned => "Delivery abandoned: session closed before acknowledgment"

/-- A refusal is terminal exactly when it is fencing. -/
theorem isTerminal_ofBroker (txid : String) (id : Identity) (e : BrokerError) :
    (ofBroker txid id e).isTerminal = e.isFencing := by
  cases e <;> rfl

end DeliveryError
end FencedLog
