/-
# Why a session operation failed

Key definitions: `SessionError`, `SessionError.ofBroker`,
`SessionError.errorClass`, `DeliveryError.forSession`.
-/
import FencedLog.Delivery.Error
import FencedLog.Session.Lifecycle

namespace FencedLog

inductive SessionError where
  /-- The operation is not allowed where the session stands. -/
  | illegalState (operation : String) (state : Lifecycle)
  /-- The broker was not reached, or its answer was not. -/
  | transport (e : BrokerError)
  | fenced (txid : String) (producer epoch : Int)
  /-- The broker will not take the request however often it is made. -/
  | fatal (e : BrokerError)
  | unknownTopic (topic : String)
  | delivery (e : DeliveryError)
  | config (reason : String)
  | internal (reason : String)
deriving DecidableEq

/-- What a terminal delivery error is to the session. -/
def DeliveryError.forSession : DeliveryError → SessionError
  | .fenced txid producer epoch => .fenced txid producer epoch
  | .rejected e => .fatal e
  | e => .delivery e

namespace SessionError

/-- What a refusal means for a request made as `id`, if there is an identity
yet. -/
def ofBroker (txid : String) (id : Option Identity) : BrokerError → SessionError
  | .fenced _ epoch _ =>
    match id with
    | some id => fenced txid id.producer id.epoch
    | none => fenced txid (-1) epoch
  | .unknownPartition topic _ => unknownTopic topic
  | e => if e.isRetriable then transport e else fatal e

def errorClass : SessionError → ErrorClass
  | transport _ => .retriable
  | fenced .. | fatal _ | internal _ => .fatal
  | delivery e => e.errorClass
  | illegalState .. | unknownTopic _ | config _ => .programmer

def isRetriable (e : SessionError) : Bool := e.errorClass = .retriable

/-- Whether the error says that a newer identity exists. -/
def isFenced : SessionError → Bool
  | fenced .. | delivery (.fenced ..) => true
  | _ => false

def message : SessionError → String
  | illegalState operation state => "Cannot " ++ operation ++ " while session is " ++ state.text
  | transport e => "Transport error: " ++ e.message
  | fenced txid producer epoch => fencedMessage txid producer epoch
  | fatal e => "Broker rejected request: " ++ e.message
  | unknownTopic topic => s!"Topic '{topic}' does not exist"
  | delivery e => "Delivery failed: " ++ e.message
  | config reason => "Configuration error: " ++ reason
  | internal reason => "Internal error: " ++ reason

end SessionError
end FencedLog
