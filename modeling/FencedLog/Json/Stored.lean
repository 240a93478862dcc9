/-
# Stored values

Identities, placements, tokens and settings are stored as JSON: a record is an
object with its fields in a fixed order, a name is a string. Integers must fit
their width. Settings may leave fields out, which then have their defaults.

Key definitions: `Stored`, `Stored.text`, `Stored.read?`.
-/
import FencedLog.Broker.Config
import FencedLog.Json.Fields
import FencedLog.Json.Printer
import FencedLog.Json.Reader
import FencedLog.Producer.Token
import FencedLog.Record.Basic
import FencedLog.Session.Config
import FencedLog.Session.Counters

namespace FencedLog

/-- A type whose values are stored as JSON. -/
class Stored (α : Type) where
  toJson : α → Json
  ofJson? : Json → Option α

namespace Stored

/-- The stored text of a value. -/
def text {α : Type} [Stored α] (a : α) : String := (toJson a).text

/-- The value a text stores. -/
def read? {α : Type} [Stored α] (s : String) : Option α := (Json.ofText? s).bind ofJson?

end Stored

/-! ### Widths -/

namespace Json

def asInt16? : Json → Option Int := asInt? (-0x8000) 0x7FFF

def asInt32? : Json → Option Int := asInt? (-0x80000000) 0x7FFFFFFF

def asInt64? : Json → Option Int := asInt? (-0x8000000000000000) 0x7FFFFFFFFFFFFFFF

def asNat32? : Json → Option Nat := asNat? 0x100000000

def asNat64? : Json → Option Nat := asNat? Text.wordLimit

end Json

open Json

/-! ### Names -/

instance : Stored Outcome := ⟨fun o => .str o.text, asName? Outcome.names⟩

instance : Stored Isolation := ⟨fun i => .str i.text, asName? Isolation.names⟩

instance : Stored Lifecycle := ⟨fun s => .str s.text, asName? Lifecycle.names⟩

/-! ### Records -/

instance : Stored Identity where
  toJson id := object [("producer_id", .int id.producer), ("epoch", .int id.epoch)]
  ofJson? v := do
    let f ← fields? ["producer_id", "epoch"] false v
    let producer ← f.required "producer_id" asInt64?
    let epoch ← f.required "epoch" asInt16?
    some ⟨producer, epoch⟩

instance : Stored ResumeToken where
  toJson t := object [("transactional_id", .str t.txid), ("producer_id", .int t.producer),
    ("epoch", .int t.epoch)]
  ofJson? v := do
    let f ← fields? ["transactional_id", "producer_id", "epoch"] false v
    let txid ← f.required "transactional_id" asString?
    let producer ← f.required "producer_id" asInt64?
    let epoch ← f.required "epoch" asInt16?
    some ⟨txid, producer, epoch⟩

instance : Stored TopicPartition where
  toJson p := object [("topic", .str p.topic), ("partition", .int p.partition)]
  ofJson? v := do
    let f ← fields? ["topic", "partition"] false v
    let topic ← f.required "topic" asString?
    let partition ← f.required "partition" asInt32?
    some ⟨topic, partition⟩

instance : Stored PartitionInfo where
  toJson p := object [("topic", .str p.topic), ("partition", .int p.partition),
    ("leader", ofOption .int p.leader)]
  ofJson? v := do
    let f ← fields? ["topic", "partition", "leader"] false v
    let topic ← f.required "topic" asString?
    let partition ← f.required "partition" asInt32?
    let leader ← f.nullable "leader" asInt32?
    some ⟨topic, partition, leader⟩

instance : Stored Placement where
  toJson p := object [("topic", .str p.topic), ("partition", .int p.partition),
    ("offset", nat p.offset), ("timestamp", .int p.time)]
  ofJson? v := do
    let f ← fields? ["topic", "partition", "offset", "timestamp"] false v
    let topic ← f.required "topic" asString?
    let partition ← f.required "partition" asInt32?
    let offset ← f.required "offset" asNat64?
    let time ← f.required "timestamp" asInt64?
    some ⟨topic, partition, offset, time⟩

/-! ### Settings -/

instance : Stored BrokerConfig where
  toJson c := object [("max_transaction_timeout", ofSpan c.maxTransactionTimeout),
    ("max_record_bytes", nat c.maxRecordBytes), ("default_partitions", nat c.defaultPartitions),
    ("auto_create_topics", .bool c.autoCreateTopics)]
  ofJson? v := do
    let f ← fields? ["max_transaction_timeout", "max_record_bytes", "default_partitions",
      "auto_create_topics"] false v
    let d := BrokerConfig.default
    let timeout ← f.withDefault "max_transaction_timeout" asSpan? d.maxTransactionTimeout
    let bytes ← f.withDefault "max_record_bytes" asNat64? d.maxRecordBytes
    let partitions ← f.withDefault "default_partitions" asNat32? d.defaultPartitions
    let create ← f.withDefault "auto_create_topics" asBool? d.autoCreateTopics
    some ⟨timeout, bytes, partitions, create⟩

instance : Stored SessionConfig where
  toJson c := object [("transactional_id", .str c.txid),
    ("bootstrap_servers", .arr (c.servers.map .str)),
    ("transaction_timeout", ofSpan c.transactionTimeout),
    ("request_timeout", ofSpan c.requestTimeout),
    ("max_batch_size", nat c.maxBatch),
    ("delivery_queue_capacity", nat c.queueCapacity),
    ("isolation_level", .str c.isolation.text),
    ("close_timeout", ofSpan c.closeTimeout)]
  ofJson? v := do
    let f ← fields? ["transactional_id", "bootstrap_servers", "transaction_timeout",
      "request_timeout", "max_batch_size", "delivery_queue_capacity", "isolation_level",
      "close_timeout"] false v
    let d := SessionConfig.default
    let txid ← f.withDefault "transactional_id" asString? d.txid
    let servers ← f.withDefault "bootstrap_servers" (asList? asString?) d.servers
    let transactionTimeout ← f.withDefault "transaction_timeout" asSpan? d.transactionTimeout
    let requestTimeout ← f.withDefault "request_timeout" asSpan? d.requestTimeout
    let maxBatch ← f.withDefault "max_batch_size" asNat64? d.maxBatch
    let queueCapacity ← f.withDefault "delivery_queue_capacity" asNat64? d.queueCapacity
    let isolation ← f.withDefault "isolation_level" (asName? Isolation.names) d.isolation
    let closeTimeout ← f.withDefault "close_timeout" asSpan? d.closeTimeout
    some ⟨txid, servers, transactionTimeout, requestTimeout, maxBatch, queueCapacity, isolation,
      closeTimeout⟩

/-- What a session counts is shown, and never read back. -/
def Counters.toJson (c : Counters) : Json :=
  object [("records_sent", nat c.sent), ("records_acknowledged", nat c.acknowledged),
    ("records_failed", nat c.failed), ("transactions_committed", nat c.committed),
    ("transactions_aborted", nat c.aborted)]

end FencedLog
