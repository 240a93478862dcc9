/-
# Why a broker refuses

Three refusals are about the connection, and the same request may be repeated.
Three mean that the identity of the request has lost its authority. The others
are about the transaction or about the data.

Key definitions: `BrokerError`, `BrokerError.isRetriable`,
`BrokerError.isFencing`, `BrokerError.message`, `WireCode`.
-/
import FencedLog.Span

namespace FencedLog

/-- A refused request. -/
inductive BrokerError where
  | unavailable (reason : String)
  | timedOut (after : Span)
  | connectionClosed
  /-- A newer epoch of the transactional id exists. -/
  | fenced (txid : String) (epoch current : Int)
  /-- The epoch was never given out. -/
  | unknownEpoch (txid : String) (epoch : Int)
  /-- The producer does not belong to the transactional id. -/
  | unmappedProducer (txid : String) (producer : Int)
  | invalidState (reason : String)
  | unknownPartition (topic : String) (partition : Int)
  | recordTooLarge (size max : Nat)
deriving DecidableEq

/-- The numbers that refusals have on the wire. -/
inductive WireCode where
  | unknownTopicOrPartition
  | requestTimedOut
  | messageTooLarge
  | networkException
  | coordinatorNotAvailable
  | invalidProducerEpoch
  | invalidTransactionState
  | invalidProducerMapping
  | producerFenced
deriving DecidableEq

def WireCode.number : WireCode → Int
  | unknownTopicOrPartition => 3
  | requestTimedOut => 7
  | messageTooLarge => 10
  | networkException => 13
  | coordinatorNotAvailable => 15
  | invalidProducerEpoch => 47
  | invalidTransactionState => 48
  | invalidProducerMapping => 49
  | producerFenced => 90

namespace BrokerError

/-- Whether the same request may succeed later without any other change. -/
def isRetriable : BrokerError → Bool
  | unavailable _ | timedOut _ | connectionClosed => true
  | _ => false

/-- Whether the request's identity has lost its authority. -/
def isFencing : BrokerError → Bool
  | fenced .. | unknownEpoch .. | unmappedProducer .. => true
  | _ => false

def code : BrokerError → WireCode
  | unavailable _ => .coordinatorNotAvailable
  | timedOut _ => .requestTimedOut
  | connectionClosed => .networkException
  | fenced .. => .producerFenced
  | unknownEpoch .. => .invalidProducerEpoch
  | unmappedProducer .. => .invalidProducerMapping
  | invalidState _ => .invalidTransactionState
  | unknownPartition .. => .unknownTopicOrPartition
  | recordTooLarge .. => .messageTooLarge

def message : BrokerError → String
  | unavailable reason => s!"Broker unavailable: {reason}"
  | timedOut after => "Request timed out after " ++ after.text
  | connectionClosed => "Connection closed"
  | fenced txid epoch current =>
    s!"Producer fenced: transactional id '{txid}' epoch {epoch} superseded by epoch {current}"
  | unknownEpoch txid epoch => s!"Invalid producer epoch {epoch} for transactional id '{txid}'"
  | unmappedProducer txid producer =>
    s!"Producer id {producer} is not mapped to transactional id '{txid}'"
  | invalidState reason => s!"Invalid transaction state: {reason}"
  | unknownPartition topic partition => s!"Unknown topic or partition: {topic}/{partition}"
  | recordTooLarge size max => s!"Record of {size} bytes exceeds the maximum of {max} bytes"

/-- No refusal is both retriable and fencing. -/
theorem not_isFencing_of_isRetriable {e : BrokerError} (h : e.isRetriable = true) :
    e.isFencing = false := by
  cases e <;> simp_all [isRetriable, isFencing]

end BrokerError
end FencedLog
