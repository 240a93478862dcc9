/-
# The broker

A broker couples the coordinator with the partition logs: what the coordinator
decides and the markers that follow from it happen together. While it is not
available it refuses every request and changes nothing.

Key definitions: `Broker`, `Request`, `Reply`, `Broker.handle`,
`Broker.createTopic`, `Broker.deleteTopic`, `Broker.expire`, `Broker.read`.
-/
import FencedLog.Broker.Config
import FencedLog.Coordinator.Basic
import FencedLog.Log.Basic

namespace FencedLog

structure Broker where
  config : BrokerConfig
  topics : Table String (List Log)
  coordinator : Coordinator
  available : Bool
  /-- How often the coordinator has been restarted. -/
  generation : Nat
deriving DecidableEq

/-- A refused administrative operation. -/
inductive AdminError where
  | topicNotFound (topic : String)
  | topicExists (topic : String)
  | partitionNotFound (topic : String) (partition : Int)
  | invalidPartitionCount (topic : String) (count : Nat)
deriving DecidableEq

def AdminError.message : AdminError → String
  | topicNotFound topic => s!"Topic not found: {topic}"
  | topicExists topic => s!"Topic already exists: {topic}"
  | partitionNotFound topic partition => s!"Partition not found: {topic}/{partition}"
  | invalidPartitionCount topic count => s!"Invalid partition count {count} for topic {topic}"

/-- What a producer asks of a broker. -/
inductive Request where
  | init (txid : String) (timeout : Span)
  | enroll (txid : String) (id : Identity) (partitions : List TopicPartition)
  | append (txid : String) (id : Identity) (partition : TopicPartition) (records : List Record)
  | finish (txid : String) (id : Identity) (outcome : Outcome)
  | listing (topic : String)
deriving DecidableEq

/-- A positive answer, one kind for each kind of request. -/
inductive Reply where
  | identity (id : Identity)
  | enrolled
  /-- The offset of the first appended record. -/
  | appended (base : Nat)
  | finished
  | partitions (infos : List PartitionInfo)
deriving DecidableEq

/-- What comes back for a request. -/
abbrev Answer := Except BrokerError Reply

namespace Broker

def start (config : BrokerConfig) : Broker :=
  ⟨config, .empty, .start config.maxTransactionTimeout, true, 0⟩

/-- The log of a partition, if there is one. -/
def log? (b : Broker) (p : TopicPartition) : Option Log :=
  if p.partition < 0 then none else (b.topics.get? p.topic).bind (·[p.partition.toNat]?)

/-- The log of an existing partition is replaced. -/
def putLog (b : Broker) (p : TopicPartition) (log : Log) : Broker :=
  match b.topics.get? p.topic with
  | some logs => { b with topics := b.topics.put p.topic (logs.set p.partition.toNat log) }
  | none => b

/-- One marker. Partitions that have been deleted get none. -/
def mark (b : Broker) (producer : Int) (outcome : Outcome) (p : TopicPartition) : Broker :=
  match b.log? p with
  | some log => b.putLog p (log.mark producer outcome)
  | none => b

/-- The markers of a completed transaction. -/
def close (b : Broker) (closing : Closing) : Broker :=
  closing.partitions.foldl (fun b p => b.mark closing.producer closing.outcome p) b

/-- A topic is made on first use, if the limits say so. -/
def ensureTopic (b : Broker) (topic : String) : Broker :=
  if b.config.autoCreateTopics && !b.topics.contains topic then
    { b with
      topics := b.topics.put topic (List.replicate (max b.config.defaultPartitions 1) Log.empty) }
  else b

/-! ### Administration -/

def createTopic (b : Broker) (topic : String) (count : Nat) : Broker × Except AdminError Unit :=
  if count = 0 then (b, .error (.invalidPartitionCount topic count))
  else if b.topics.contains topic then (b, .error (.topicExists topic))
  else ({ b with topics := b.topics.put topic (List.replicate count Log.empty) }, .ok ())

def deleteTopic (b : Broker) (topic : String) : Broker × Except AdminError Unit :=
  if b.topics.contains topic then ({ b with topics := b.topics.erase topic }, .ok ())
  else (b, .error (.topicNotFound topic))

def setAvailable (b : Broker) (available : Bool) : Broker := { b with available := available }

/-- The coordinator restarts; what it knows survives. -/
def restart (b : Broker) : Broker := { b with generation := b.generation + 1 }

def withLog {α : Type} (b : Broker) (p : TopicPartition) (f : Log → α) : Except AdminError α :=
  match b.log? p with
  | some log => .ok (f log)
  | none => .error (.partitionNotFound p.topic p.partition)

/-- Append records outside of any transaction; answers the first one's offset. -/
def appendPlain (b : Broker) (p : TopicPartition) (records : List Record) :
    Broker × Except AdminError Nat :=
  match b.log? p with
  | some log => (b.putLog p (log.append none records), .ok log.next)
  | none => (b, .error (.partitionNotFound p.topic p.partition))

/-- Abort what has outlived its timeout; answers the transactional ids. -/
def expire (b : Broker) (now : Span) : Broker × List String :=
  let (coordinator, closings) := b.coordinator.expire now
  (closings.foldl close { b with coordinator := coordinator }, closings.map (·.txid))

/-- A record as a reader sees it. -/
structure Sighting where
  partition : Nat
  offset : Nat
  record : Record

/-- The visible records of a topic, by partition, then by offset. -/
def read (b : Broker) (topic : String) (isolation : Isolation) :
    Except AdminError (List Sighting) :=
  match b.topics.get? topic with
  | none => .error (.topicNotFound topic)
  | some logs => .ok (logs.zipIdx.flatMap fun (log, partition) =>
      (log.read isolation).map fun (offset, record) => ⟨partition, offset, record⟩)

/-! ### Requests -/

/-- Each partition is made if it may be, and then has to exist. -/
def ensureAll (b : Broker) : List TopicPartition → Broker × Except BrokerError Unit
  | [] => (b, .ok ())
  | p :: ps =>
    let b := b.ensureTopic p.topic
    match b.log? p with
    | some _ => b.ensureAll ps
    | none => (b, .error (.unknownPartition p.topic p.partition))

def init (b : Broker) (txid : String) (timeout : Span) : Broker × Answer :=
  let (coordinator, id, closing) := b.coordinator.init txid timeout
  let b := { b with coordinator := coordinator }
  (match closing with
    | some closing => b.close closing
    | none => b,
    .ok (.identity id))

def enroll (b : Broker) (now : Span) (txid : String) (id : Identity)
    (partitions : List TopicPartition) : Broker × Answer :=
  match b.ensureAll partitions with
  | (b, .error e) => (b, .error e)
  | (b, .ok ()) =>
    let (coordinator, r) := b.coordinator.enroll now txid id partitions
    ({ b with coordinator := coordinator }, r.map fun _ => .enrolled)

/-- The first record with too many bytes is looked for before anything else. -/
def append (b : Broker) (txid : String) (id : Identity) (p : TopicPartition)
    (records : List Record) : Broker × Answer :=
  match records.find? (fun r => b.config.maxRecordBytes < r.size) with
  | some r => (b, .error (.recordTooLarge r.size b.config.maxRecordBytes))
  | none =>
    match b.coordinator.permit txid id p with
    | (coordinator, .error e) => ({ b with coordinator := coordinator }, .error e)
    | (coordinator, .ok ()) =>
      let b := { b with coordinator := coordinator }
      match b.log? p with
      | some log =>
        (b.putLog p (log.append (some id.producer) records), .ok (.appended log.next))
      | none => (b, .error (.unknownPartition p.topic p.partition))

def finish (b : Broker) (txid : String) (id : Identity) (outcome : Outcome) : Broker × Answer :=
  match b.coordinator.finish txid id outcome with
  | (coordinator, .error e) => ({ b with coordinator := coordinator }, .error e)
  | (coordinator, .ok none) => ({ b with coordinator := coordinator }, .ok .finished)
  | (coordinator, .ok (some closing)) =>
    (({ b with coordinator := coordinator } : Broker).close closing, .ok .finished)

/-- The number of the only broker. -/
def leader : Int := 0

/-- Partitions `0` to `count - 1` of a topic. -/
def numbered (topic : String) (leader : Option Int) (count : Nat) : List PartitionInfo :=
  (List.range count).map fun i : Nat => ⟨topic, (i : Int), leader⟩

def listing (b : Broker) (topic : String) : Broker × Answer :=
  let b := b.ensureTopic topic
  match b.topics.get? topic with
  | some logs => (b, .ok (.partitions (numbered topic (some leader) logs.length)))
  | none => (b, .error (.unknownPartition topic (-1)))

/-- The answer to a request, by the clock reading `now`. -/
def handle (b : Broker) (now : Span) (request : Request) : Broker × Answer :=
  if b.available then
    match request with
    | .init txid timeout => b.init txid timeout
    | .enroll txid id partitions => b.enroll now txid id partitions
    | .append txid id p records => b.append txid id p records
    | .finish txid id outcome => b.finish txid id outcome
    | .listing topic => b.listing topic
  else (b, .error (.unavailable "transaction coordinator is not available"))

theorem handle_of_not_available {b : Broker} (h : b.available = false) (now : Span)
    (request : Request) : (b.handle now request).1 = b := by
  simp [handle, h]

end Broker
end FencedLog
