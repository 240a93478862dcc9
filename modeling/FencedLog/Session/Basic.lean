/-
# Sessions

A session obtains or adopts an identity, begins a transaction, sends records,
and commits or aborts. A transaction that an adopted identity may have left
open is inherited: it can be finished without being begun here. Records are
only queued here; the delivery worker does the rest.

An operation that cannot go on at once leaves the session waiting for one
thing: an answer, room in the queue, a flush, or the end of the worker.

Key definitions: `Session`, `Wait`, `Effect`, `Session.push`, `Session.route`,
`Session.conclude`.
Key theorem: `Session.build_eq_ok_iff`.
-/
import FencedLog.Delivery.Worker
import FencedLog.Producer.Token
import FencedLog.Record.KeyHash
import FencedLog.Session.Config
import FencedLog.Text.Numeral

namespace FencedLog

/-- What an operation that succeeded tells. -/
inductive Report where
  | done
  | partitions (infos : List PartitionInfo)
deriving DecidableEq

/-- What a session and its worker do to the outside. -/
inductive Effect where
  /-- The session makes a request of its own. -/
  | asked (q : Request)
  /-- The worker makes a request, or a send ends. -/
  | deed (d : Deed)
  | returned (r : Except SessionError Report)
  /-- The connection is given up. -/
  | disconnected

/-- What follows once a flush is reached. -/
inductive AfterFlush where
  | report
  | finish (outcome : Outcome)
deriving DecidableEq

/-- What follows once a message is queued. -/
inductive AfterPush where
  | sent
  | begun
  | flush (next : AfterFlush)
deriving DecidableEq

/-- What the running operation waits for. -/
inductive Wait where
  /-- No operation is running. -/
  | nothing
  | identity
  | listing (topic : String)
  /-- The partitions of the draft's topic. -/
  | routing (draft : Draft) (ticket : Ticket) (present : Int)
  /-- Room in the queue. -/
  | room (m : Message) (next : AfterPush)
  | flush (next : AfterFlush)
  /-- The answer to a request to end the transaction; if it is refused the
  session goes back to `back`. -/
  | finish (outcome : Outcome) (back : Lifecycle)
  /-- The end of the worker. -/
  | drain

structure Session where
  config : SessionConfig
  lifecycle : Lifecycle
  identity : Option Identity
  /-- Whether the identity may have left a transaction open. -/
  inherited : Bool
  /-- Whether the session can still queue messages for its worker. -/
  attached : Bool
  /-- How many records have been spread without key and partition. -/
  rotation : Nat
  wait : Wait
  shared : Shared
  worker : Option Worker

namespace Session

/-- A session needs valid settings and a connection. -/
def build (config : SessionConfig) (connected : Bool) : Except SessionError Session :=
  match config.validate with
  | .error e => .error e
  | .ok () =>
    if connected then
      .ok ⟨config, .uninitialized, none, false, false, 0, .nothing, .start, none⟩
    else .error (.config "transport is required")

/-- Nothing has happened yet to a session that is built. -/
theorem build_eq_ok_iff {config : SessionConfig} {connected : Bool} {s : Session} :
    build config connected = .ok s ↔ config.validate = .ok () ∧ connected = true ∧
      s = ⟨config, .uninitialized, none, false, false, 0, .nothing, .start, none⟩ := by
  unfold build
  cases config.validate with
  | error e => simp
  | ok u => cases connected <;> simp [eq_comm]

/-- The identity, for an operation of the given name. -/
def currentIdentity (s : Session) (operation : String) : Except SessionError Identity :=
  if s.lifecycle.hasIdentity then
    match s.identity with
    | some id => .ok id
    | none => .error (.illegalState operation s.lifecycle)
  else .error (.illegalState operation s.lifecycle)

/-- The token of the current identity. -/
def token (s : Session) : Except SessionError ResumeToken :=
  (s.currentIdentity "resume_token").map (ResumeToken.ofIdentity s.config.txid)

/-- The operation ends. -/
def finished (s : Session) (r : Except SessionError Report) : Session × List Effect :=
  ({ s with wait := .nothing }, [.returned r])

/-- The operation ends with an error. -/
def failed (s : Session) (e : SessionError) : Session × List Effect := s.finished (.error e)

/-- The operation is not allowed where the session stands. -/
def illegal (s : Session) (operation : String) : Session × List Effect :=
  s.failed (.illegalState operation s.lifecycle)

/-- The operation makes a request and waits for its answer. -/
def ask (s : Session) (wait : Wait) (q : Request) : Session × List Effect :=
  ({ s with wait := wait }, [.asked q])

/-- The worker moves. -/
def deliver (s : Session) (f : Delivery → Delivery × List Deed) : Session × List Effect :=
  match s.worker with
  | none => (s, [])
  | some worker =>
    let (d, deeds) := f ⟨worker, s.shared⟩
    ({ s with worker := some d.worker, shared := d.shared }, deeds.map .deed)

/-- Whether there is no worker any more, or none yet. -/
def isWorkerGone (s : Session) : Bool :=
  match s.worker with
  | none => true
  | some worker => (Delivery.mk worker s.shared).isStopped

/-- The session takes an identity, and its worker starts. A queue of any capacity
can be had; that one of 2⁶¹ messages or more cannot be made is left out. -/
def acquire (s : Session) (id : Identity) (inherited : Bool) : Session :=
  { s with
    lifecycle := .ready
    identity := some id
    inherited := inherited
    attached := true
    worker := some (Delivery.start s.config.txid id s.config.maxBatch s.shared).worker }

/-! ### Queueing -/

/-- The message is in the queue. -/
def pushed (s : Session) : AfterPush → Session × List Effect
  | .sent => s.finished (.ok .done)
  | .begun => { s with lifecycle := .inTransaction }.finished (.ok .done)
  | .flush next => ({ s with wait := .flush next }, [])

/-- There is no worker to queue for. A send is accepted all the same, and is
abandoned at once. -/
def unqueued (s : Session) (m : Message) : AfterPush → Session × List Effect
  | .sent =>
    let (s, returned) := { s with shared := s.shared.countFailed 1 }.finished (.ok .done)
    match m with
    | .send p => (s, .deed (.completed p.ticket (.error .abandoned)) :: returned)
    | .barrier _ => (s, returned)
  | _ => s.failed (.internal "delivery worker stopped")

/-- Queue a message, or wait for room. A call that waits for room is let in when
it looks again, never while a round is being taken, so no round holds more
messages than the queue does; a round that is filled up as it is taken is one of
a session with a longer queue. -/
def push (s : Session) (m : Message) (next : AfterPush) : Session × List Effect :=
  match s.worker with
  | none => s.unqueued m next
  | some worker =>
    match worker.phase with
    | .stopped => s.unqueued m next
    | _ =>
      if worker.queue.length < s.config.queueCapacity then
        { s with worker := some { worker with queue := worker.queue ++ [m] } }.pushed next
      else ({ s with wait := .room m next }, [])

/-! ### Routing -/

/-- The partition of a draft among the partitions of its topic: the one it
asks for, or that of its key, or the next in turn. -/
def route (s : Session) (draft : Draft) (count : Nat) :
    Session × Except DeliveryError TopicPartition :=
  if count = 0 then (s, .error (.unknownPartition draft.topic (draft.partition.getD (-1))))
  else
    match draft.partition, draft.key with
    | some p, _ =>
      if p < 0 ∨ (count : Int) ≤ p then
        ({ s with shared := s.shared.forget draft.topic }, .error (.unknownPartition draft.topic p))
      else (s, .ok ⟨draft.topic, p⟩)
    | none, some key => (s, .ok ⟨draft.topic, KeyHash.partitionOf key count⟩)
    | none, none =>
      ({ s with rotation := (s.rotation + 1) % Text.wordLimit },
        .ok ⟨draft.topic, (s.rotation % count : Nat)⟩)

/-- A draft is queued once it is known where it goes, or that it cannot go. -/
def enqueue (s : Session) (draft : Draft) (ticket : Ticket) (present : Int)
    (target : Except DeliveryError TopicPartition) : Session × List Effect :=
  let counters := { s.shared.counters with sent := s.shared.counters.sent + 1 }
  { s with shared := { s.shared with counters := counters } }.push
    (.send ⟨target, draft.record present, ticket⟩) .sent

/-! ### The end of a transaction -/

/-- The transaction is over for the session. -/
def conclude (s : Session) (outcome : Outcome) : Session × List Effect :=
  let counters := match outcome with
    | .commit => { s.shared.counters with committed := s.shared.counters.committed + 1 }
    | .abort => { s.shared.counters with aborted := s.shared.counters.aborted + 1 }
  { s with
    lifecycle := .ready
    inherited := false
    shared := { s.shared with started := false, counters := counters } }.finished (.ok .done)

/-- The broker is asked to end the transaction. -/
def askFinish (s : Session) (outcome : Outcome) (back : Lifecycle) : Session × List Effect :=
  let ending : Lifecycle := match outcome with
    | .commit => .committing
    | .abort => .aborting
  match s.identity with
  | some id =>
    { s with lifecycle := ending }.ask (.finish outcome back) (.finish s.config.txid id outcome)
  | none => { s with lifecycle := back }.failed (.illegalState "end_transaction" ending)

/-- Everything sent has been completed: the transaction ends. After a terminal
error it cannot be committed, and is aborted without a request; a transaction
that the broker does not know of ends without a request as well. -/
def finishFlushed (s : Session) (outcome : Outcome) : Session × List Effect :=
  match s.shared.fatal, outcome with
  | some e, .commit => { s with lifecycle := .inTransaction }.failed e.forSession
  | some _, .abort => s.conclude .abort
  | none, outcome =>
    if s.inherited || s.shared.started then s.askFinish outcome .inTransaction
    else s.conclude outcome

/-- A flush has been reached. -/
def flushed (s : Session) : AfterFlush → Session × List Effect
  | .report => s.finished (.ok .done)
  | .finish outcome => s.finishFlushed outcome

/-- The barrier of a flush is queued. -/
def askFlush (s : Session) (next : AfterFlush) : Session × List Effect :=
  match s.worker with
  | none => s.flushed next
  | some worker =>
    { s with worker := some { worker with flushed := false } }.push (.barrier .flush) (.flush next)

end Session
end FencedLog
