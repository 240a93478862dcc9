/-
# The delivery worker

Every session that has an identity has a worker, which delivers what the
session queues. The worker takes a round of messages, up to a barrier or to a
bound, fails the records whose routing failed, enrolls the partitions that the
transaction does not have yet, and appends one batch after the other. Then it
acts on the barrier. Every record it takes is completed before the barrier is
acted on.

The worker waits for one request at a time, so it is a machine that moves by
rounds and by answers; what it does to the outside is a list of effects.

Key definitions: `Message`, `Worker`, `Shared`, `Delivery`, `Delivery.round`,
`Delivery.answered`, `Delivery.drained`, `Delivery.kill`.
Key theorems: `takeRound_messages`, `takeRound_length_le`,
`length_routed_add_misrouted`.
-/
import FencedLog.Broker.Basic
import FencedLog.Delivery.Batch
import FencedLog.Delivery.Error
import FencedLog.Session.Counters

namespace FencedLog

/-- How the sender of a record hears of its completion. -/
inductive Listener where
  /-- By a value that it may ask for at any time. -/
  | future
  /-- By a call, made by whoever completes the record. -/
  | callback
deriving DecidableEq

/-- One accepted send. -/
structure Ticket where
  number : Nat
  listener : Listener
deriving DecidableEq

/-- How a send ends. -/
abbrev Completion := Except DeliveryError Placement

/-- A record on its way, with its partition or the reason why it has none. -/
structure Pending where
  target : Except DeliveryError TopicPartition
  record : Record
  ticket : Ticket

inductive Barrier where
  /-- Tell the session when everything before is completed. -/
  | flush
  /-- A transaction begins: no partition is enrolled in it. -/
  | newTransaction
deriving DecidableEq

inductive Message where
  | send (p : Pending)
  | barrier (b : Barrier)

/-- What a worker does to the outside. -/
inductive Deed where
  | request (q : Request)
  | completed (t : Ticket) (c : Completion)
  /-- The ticket is given up without a completion. -/
  | dropped (t : Ticket)

/-- A record that has a partition. -/
abbrev Load := Record × Ticket

/-- What the worker is waiting for. -/
inductive Phase where
  | idle
  /-- The answer to the enrollment of `fresh`. -/
  | enrolling (fresh : List TopicPartition) (batches : List (Batch Load)) (barrier : Option Barrier)
  /-- The answer to the append of `batch`. -/
  | appending (batch : Batch Load) (rest : List (Batch Load)) (barrier : Option Barrier)
  /-- Nothing: it has ended, or was killed. -/
  | stopped

structure Worker where
  txid : String
  identity : Identity
  maxBatch : Nat
  queue : List Message
  /-- The partitions enrolled since the last transaction began. -/
  enrolled : List TopicPartition
  phase : Phase
  /-- A flush has been reached that the session has not heard of yet. -/
  flushed : Bool

/-- What session and worker share. -/
structure Shared where
  /-- The first terminal error. -/
  fatal : Option DeliveryError
  /-- Whether the broker may know of the transaction. -/
  started : Bool
  topics : Table String (List PartitionInfo)
  counters : Counters

namespace Shared

def start : Shared := ⟨none, false, .empty, .zero⟩

/-- Only the first terminal error is kept. -/
def latch (s : Shared) (e : DeliveryError) : Shared := { s with fatal := s.fatal.or (some e) }

def forget (s : Shared) (topic : String) : Shared := { s with topics := s.topics.erase topic }

def countFailed (s : Shared) (n : Nat) : Shared :=
  { s with counters := { s.counters with failed := s.counters.failed + n } }

def countAcknowledged (s : Shared) (n : Nat) : Shared :=
  { s with counters := { s.counters with acknowledged := s.counters.acknowledged + n } }

end Shared

/-! ### Rounds -/

/-- How many batches a round may fill. -/
def batchesPerRound : Nat := 16

/-- The most records of a round; a 64-bit count. -/
def roundLimit (maxBatch : Nat) : Nat := min (maxBatch * batchesPerRound) 0xFFFFFFFFFFFFFFFF

/-- A round takes records until it has `limit` of them, or to the first
barrier. At least one message is taken. Answers the records, the barrier and
the messages that are left. -/
def takeRound (limit : Nat) : List Message → List Pending × Option Barrier × List Message
  | [] => ([], none, [])
  | .barrier b :: rest => ([], some b, rest)
  | .send p :: rest =>
    if limit ≤ 1 then ([p], none, rest)
    else
      let (ps, b, rest) := takeRound (limit - 1) rest
      (p :: ps, b, rest)

/-- The records that have a partition, in order. -/
def routed : List Pending → List (TopicPartition × Load)
  | [] => []
  | ⟨.ok target, record, ticket⟩ :: rest => (target, record, ticket) :: routed rest
  | ⟨.error _, _, _⟩ :: rest => routed rest

/-- The completions of the records that have none, in order. -/
def misrouted : List Pending → List Deed
  | [] => []
  | ⟨.ok _, _, _⟩ :: rest => misrouted rest
  | ⟨.error e, _, ticket⟩ :: rest => .completed ticket (.error e) :: misrouted rest

/-- The completions of tickets that all fail with one error. -/
def failAll (e : DeliveryError) (tickets : List Ticket) : List Deed :=
  tickets.map fun t => .completed t (.error e)

/-- The completions of records that were appended from `base` on. -/
def placeAll (p : TopicPartition) (base : Nat) : List Load → List Deed
  | [] => []
  | (record, ticket) :: rest =>
    .completed ticket (.ok ⟨p.topic, p.partition, base, record.time⟩) :: placeAll p (base + 1) rest

/-- A round is the front of the queue: nothing is lost and nothing moves. -/
theorem takeRound_messages : ∀ (limit : Nat) (queue : List Message),
    (takeRound limit queue).1.map Message.send
      ++ ((takeRound limit queue).2.1.map Message.barrier).toList ++ (takeRound limit queue).2.2
      = queue
  | _, [] => rfl
  | _, .barrier b :: rest => rfl
  | limit, .send p :: rest => by
    by_cases h : limit ≤ 1
    · simp [takeRound, h]
    · have ih := takeRound_messages (limit - 1) rest
      simp only [takeRound, if_neg h, List.map_cons, List.cons_append]
      rw [ih]

/-- A round holds no more records than its limit, and at least one may come. -/
theorem takeRound_length_le : ∀ (limit : Nat) (queue : List Message),
    (takeRound limit queue).1.length ≤ max limit 1
  | _, [] => Nat.zero_le _
  | _, .barrier _ :: _ => Nat.zero_le _
  | limit, .send p :: rest => by
    by_cases h : limit ≤ 1
    · simp only [takeRound, if_pos h, List.length_singleton]
      omega
    · have ih := takeRound_length_le (limit - 1) rest
      simp only [takeRound, if_neg h, List.length_cons]
      omega

/-- A round takes at least one message. -/
theorem length_takeRound_lt (limit : Nat) : ∀ {queue : List Message}, queue ≠ [] →
    (takeRound limit queue).2.2.length < queue.length
  | [], h => absurd rfl h
  | .barrier _ :: rest, _ => by simp [takeRound]
  | .send p :: rest, _ => by
    by_cases h : limit ≤ 1
    · simp [takeRound, h]
    · have hrest := congrArg List.length (takeRound_messages (limit - 1) rest)
      simp only [takeRound, if_neg h, List.length_cons]
      generalize takeRound (limit - 1) rest = t at hrest ⊢
      obtain ⟨pending, barrier, left⟩ := t
      simp only [List.length_append] at hrest ⊢
      omega

/-- Every record of a round has a partition or fails at once. -/
theorem length_routed_add_misrouted : ∀ ps : List Pending,
    (routed ps).length + (misrouted ps).length = ps.length
  | [] => rfl
  | ⟨.ok _, _, _⟩ :: rest => by
    have ih := length_routed_add_misrouted rest
    simp only [routed, misrouted, List.length_cons]
    omega
  | ⟨.error _, _, _⟩ :: rest => by
    have ih := length_routed_add_misrouted rest
    simp only [routed, misrouted, List.length_cons]
    omega

def Batch.tickets (b : Batch Load) : List Ticket := b.items.map (·.2)

def Batch.records (b : Batch Load) : List Record := b.items.map (·.1)

/-- A worker and what it shares with its session. -/
structure Delivery where
  worker : Worker
  shared : Shared

namespace Delivery

def start (txid : String) (identity : Identity) (maxBatch : Nat) (shared : Shared) : Delivery :=
  ⟨⟨txid, identity, maxBatch, [], [], .idle, false⟩, shared⟩

def setPhase (d : Delivery) (phase : Phase) : Delivery :=
  { d with worker := { d.worker with phase := phase } }

/-- Every record of the round is completed: the barrier is acted on. -/
def reach (d : Delivery) : Option Barrier → Delivery
  | none => d.setPhase .idle
  | some .flush => { d with worker := { d.worker with phase := .idle, flushed := true } }
  | some .newTransaction => { d with worker := { d.worker with phase := .idle, enrolled := [] } }

/-- The next batch is appended. Once a terminal error is known, no further
batch is: its records fail with that error. -/
def appendNext (d : Delivery) (barrier : Option Barrier) :
    List (Batch Load) → Delivery × List Deed
  | [] => (d.reach barrier, [])
  | batch :: rest =>
    match d.shared.fatal with
    | some e =>
      let d := { d with shared := d.shared.countFailed batch.items.length }
      let (d, deeds) := d.appendNext barrier rest
      (d, failAll e batch.tickets ++ deeds)
    | none =>
      (d.setPhase (.appending batch rest barrier),
        [.request (.append d.worker.txid d.worker.identity batch.partition batch.records)])

/-- The records of a round are batched, and partitions that are new to the
transaction are enrolled first. -/
def dispatch (d : Delivery) (barrier : Option Barrier) (batches : Batches Load) :
    Delivery × List Deed :=
  if batches.isEmpty then (d.reach barrier, [])
  else
    match batches.partitions.filter (!d.worker.enrolled.contains ·) with
    | [] => d.appendNext barrier batches.batches
    | fresh =>
      let d := { d with shared := { d.shared with started := true } }
      (d.setPhase (.enrolling fresh batches.batches barrier),
        [.request (.enroll d.worker.txid d.worker.identity fresh)])

/-- The records of a round. After a terminal error all of them fail with it. -/
def deliver (d : Delivery) (barrier : Option Barrier) (pending : List Pending) :
    Delivery × List Deed :=
  match d.shared.fatal with
  | some e =>
    let d := { d with shared := d.shared.countFailed pending.length }
    (d.reach barrier, failAll e (pending.map (·.ticket)))
  | none =>
    let lost := misrouted pending
    let d := { d with shared := d.shared.countFailed lost.length }
    let batches := (Batches.empty d.worker.maxBatch).pushAll (routed pending)
    let (d, deeds) := d.dispatch barrier batches
    (d, lost ++ deeds)

/-- An idle worker takes a round of the first `visible` messages; at least one
is visible when there is any. A round takes what is in the queue when it begins:
who waits for room is let in after it, so it holds at most as many messages as the
queue can. -/
def round (d : Delivery) (visible : Nat) : Delivery × List Deed :=
  match d.worker.phase with
  | .idle =>
    let visible := max visible 1
    let (pending, barrier, rest) :=
      takeRound (roundLimit d.worker.maxBatch) (d.worker.queue.take visible)
    let d := { d with worker := { d.worker with queue := rest ++ d.worker.queue.drop visible } }
    if pending.isEmpty then (d.reach barrier, []) else d.deliver barrier pending
  | _ => (d, [])

/-! ### Answers -/

/-- A refusal becomes the error of the records it concerns. What was known of
a topic that does not exist is forgotten, and a terminal error is kept. -/
def refused (d : Delivery) (e : BrokerError) : Delivery × DeliveryError :=
  let shared := match e with
    | .unknownPartition topic _ => d.shared.forget topic
    | _ => d.shared
  let err := DeliveryError.ofBroker d.worker.txid d.worker.identity e
  ({ d with shared := if err.isTerminal then shared.latch err else shared }, err)

/-- The broker has answered the worker's request. -/
def answered (d : Delivery) (answer : Answer) : Delivery × List Deed :=
  match d.worker.phase, answer with
  | .enrolling fresh batches barrier, .ok .enrolled =>
    appendNext { d with worker := { d.worker with enrolled := d.worker.enrolled ++ fresh } }
      barrier batches
  | .enrolling _ batches barrier, .error e =>
    let (d, err) := d.refused e
    let tickets := batches.flatMap Batch.tickets
    let d := { d with shared := d.shared.countFailed tickets.length }
    (d.reach barrier, failAll err tickets)
  | .appending batch rest barrier, .ok (.appended base) =>
    let d := { d with shared := d.shared.countAcknowledged batch.items.length }
    let (d, deeds) := d.appendNext barrier rest
    (d, placeAll batch.partition base batch.items ++ deeds)
  | .appending batch rest barrier, .error e =>
    let (d, err) := d.refused e
    let d := { d with shared := d.shared.countFailed batch.items.length }
    let (d, deeds) := d.appendNext barrier rest
    (d, failAll err batch.tickets ++ deeds)
  | _, _ => (d, [])

/-! ### The end -/

/-- Nothing more can come: an idle worker with an empty queue ends. -/
def drained (d : Delivery) : Delivery :=
  match d.worker.phase, d.worker.queue with
  | .idle, [] => d.setPhase .stopped
  | _, _ => d

/-- The tickets of the messages of a queue. -/
def queued : List Message → List Ticket
  | [] => []
  | .send p :: rest => p.ticket :: queued rest
  | .barrier _ :: rest => queued rest

/-- The tickets of the records that the worker has taken and not completed. -/
def held : Phase → List Ticket
  | .enrolling _ batches _ => batches.flatMap Batch.tickets
  | .appending batch rest _ => batch.tickets ++ rest.flatMap Batch.tickets
  | .idle | .stopped => []

/-- The worker is killed: the tickets it holds and those in its queue are
given up. -/
def kill (d : Delivery) : Delivery × List Deed :=
  ({ d with worker := { d.worker with queue := [], phase := .stopped } },
    (held d.worker.phase ++ queued d.worker.queue).map .dropped)

def isStopped (d : Delivery) : Bool :=
  match d.worker.phase with
  | .stopped => true
  | _ => false

end Delivery
end FencedLog
