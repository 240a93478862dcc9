/-
# The transaction of a transactional id

For each transactional id the coordinator keeps one entry: the current
identity, how far its transaction has come, the enrolled partitions, and how
the last transaction of each epoch ended.

Key definitions: `Stage`, `Transaction`, `Transaction.validate`,
`Transaction.complete`, `Transaction.bump`, `Transaction.expired`, `Closing`.
-/
import FencedLog.Broker.Error
import FencedLog.Producer.Identity
import FencedLog.Record.Partition
import FencedLog.Table

namespace FencedLog

/-- How far the transaction of the current epoch has come. -/
inductive Stage where
  /-- None has started at this epoch. -/
  | empty
  /-- Partitions are enrolled and writes are taken. -/
  | ongoing
  | completed (outcome : Outcome)
deriving DecidableEq, Inhabited

def Stage.text : Stage → String
  | empty => "empty"
  | ongoing => "ongoing"
  | completed .commit => "complete_commit"
  | completed .abort => "complete_abort"

/-- A completed transaction: where markers are due, and under which producer. -/
structure Closing where
  txid : String
  producer : Int
  outcome : Outcome
  partitions : List TopicPartition
deriving DecidableEq

/-- What the coordinator knows about a transactional id. Times are read off
the coordinator's clock. -/
structure Transaction where
  txid : String
  identity : Identity
  stage : Stage
  /-- The enrolled partitions, as an ordered set. -/
  partitions : List TopicPartition
  started : Option Span
  timeout : Span
  /-- How the last transaction of each epoch of this producer ended. -/
  outcomes : Table Int Outcome
deriving DecidableEq

namespace Transaction

/-- A transactional id that has just been given a producer. -/
def fresh (txid : String) (producer : Int) (timeout : Span) : Transaction :=
  ⟨txid, ⟨producer, 0⟩, .empty, [], none, timeout, .empty⟩

/-- A request must carry the current identity. -/
def validate (t : Transaction) (id : Identity) : Except BrokerError Unit :=
  if id.producer ≠ t.identity.producer then .error (.unmappedProducer t.txid id.producer)
  else if id.epoch < t.identity.epoch then .error (.fenced t.txid id.epoch t.identity.epoch)
  else if t.identity.epoch < id.epoch then .error (.unknownEpoch t.txid id.epoch)
  else .ok ()

/-- Enroll partitions; a transaction starts now if none is ongoing. -/
def enroll (t : Transaction) (now : Span) (partitions : List TopicPartition) : Transaction :=
  if t.stage = .ongoing then
    { t with partitions := TopicPartition.insertAll partitions t.partitions }
  else
    { t with
      stage := .ongoing
      partitions := TopicPartition.insertAll partitions []
      started := some now }

/-- The transaction ends, and its partitions are handed back. -/
def complete (t : Transaction) (outcome : Outcome) : Transaction × Closing :=
  ({ t with
      stage := .completed outcome
      partitions := []
      started := none
      outcomes := t.outcomes.put t.identity.epoch outcome },
    ⟨t.txid, t.identity.producer, outcome, t.partitions⟩)

/-- The next epoch. After the last one the id goes on under the producer
`next`, and the outcomes of the old producer are forgotten. -/
def bump (t : Transaction) (next : Int) : Transaction × Int :=
  if t.identity.epoch = lastEpoch then
    ({ t with identity := ⟨next, 0⟩, stage := .empty, outcomes := .empty }, next + 1)
  else ({ t with identity := ⟨t.identity.producer, t.identity.epoch + 1⟩, stage := .empty }, next)

/-- Whether the ongoing transaction has outlived its timeout. -/
def expired (t : Transaction) (now : Span) : Bool :=
  t.stage = .ongoing && match t.started with
    | some started => decide (t.timeout.nanos < now.nanos - started.nanos)
    | none => false

theorem validate_ok_iff {t : Transaction} {id : Identity} :
    t.validate id = .ok () ↔ id = t.identity := by
  unfold validate
  constructor
  · intro h
    split at h
    · simp at h
    · split at h
      · simp at h
      · split at h
        · simp at h
        · cases id
          cases ht : t.identity
          simp_all
          omega
  · rintro rfl
    simp

end Transaction
end FencedLog
