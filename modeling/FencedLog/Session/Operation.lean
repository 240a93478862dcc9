/-
# The operations of a session

A session moves by events: its owner calls an operation, a request is
answered, the worker takes a round, and so on. An event that does not fit the
session's state changes nothing.

Key definitions: `Operation`, `Event`, `Session.called`, `Session.answered`,
`Session.woken`, `Session.step`, `Session.run`.
Key theorems: `Session.run_append`, `Session.run_keeps`.
-/
import FencedLog.Session.Basic

namespace FencedLog

/-- What the owner of a session may call. -/
inductive Operation where
  | init
  | resume (producer epoch : Int)
  | resumeFrom (token : ResumeToken)
  | begin
  /-- `present` is the time of a draft that has none. -/
  | send (draft : Draft) (ticket : Ticket) (present : Int)
  | flush
  | finish (outcome : Outcome)
  | listing (topic : String)
  | close
deriving DecidableEq

inductive Event where
  | called (operation : Operation)
  /-- The session's own request is answered. -/
  | answered (answer : Answer)
  /-- The session looks again for what it waits for. -/
  | woken
  /-- A close has waited long enough. -/
  | outwaited
  /-- The owner gives the session up without closing it. -/
  | abandoned
  /-- The worker takes a round of the first `visible` messages. -/
  | round (visible : Nat)
  /-- The worker's request is answered. -/
  | delivered (answer : Answer)
  /-- The worker finds that nothing more can come. -/
  | drained
  /-- The worker dies. -/
  | died

namespace Session

def resume (s : Session) (producer epoch : Int) : Session × List Effect :=
  if producer < 0 ∨ epoch < 0 then
    s.failed (.config ("cannot resume invalid producer identity "
      ++ (Identity.mk producer epoch).text))
  else (s.acquire ⟨producer, epoch⟩ true).finished (.ok .done)

def begin (s : Session) : Session × List Effect :=
  match s.shared.fatal with
  | some e => s.failed e.forSession
  | none =>
    { s with shared := { s.shared with started := false } }.push (.barrier .newTransaction) .begun

def send (s : Session) (draft : Draft) (ticket : Ticket) (present : Int) : Session × List Effect :=
  match s.shared.topics.get? draft.topic with
  | some infos =>
    let (s, target) := s.route draft infos.length
    s.enqueue draft ticket present target
  | none => s.ask (.routing draft ticket present) (.listing draft.topic)

/-- Commit or abort. Without a transaction, own or inherited, there is nothing
to do. -/
def finish (s : Session) (operation : String) (outcome : Outcome) : Session × List Effect :=
  match s.lifecycle with
  | .uninitialized | .closed => s.illegal operation
  | .ready =>
    if s.inherited then s.askFinish outcome .ready else s.finished (.ok .done)
  | .inTransaction | .committing | .aborting => s.askFlush (.finish outcome)

def close (s : Session) : Session × List Effect :=
  match s.lifecycle with
  | .closed => s.finished (.ok .done)
  | _ =>
    let s := { s with lifecycle := .closed }
    match s.worker with
    | some _ => ({ s with attached := false, wait := .drain }, [])
    | none =>
      let (s, returned) := s.finished (.ok .done)
      (s, .disconnected :: returned)

/-- The owner calls an operation. -/
def called (s : Session) : Operation → Session × List Effect
  | .init =>
    if s.lifecycle = .uninitialized then
      s.ask .identity (.init s.config.txid s.config.transactionTimeout)
    else s.illegal "initialize"
  | .resume producer epoch =>
    if s.lifecycle = .uninitialized then s.resume producer epoch else s.illegal "resume"
  | .resumeFrom token =>
    if s.lifecycle ≠ .uninitialized then s.illegal "resume"
    else if token.txid ≠ s.config.txid then
      s.failed (.config ("resume token belongs to transactional id '" ++ token.txid
        ++ "', session is configured for '" ++ s.config.txid ++ "'"))
    else s.resume token.producer token.epoch
  | .begin => if s.lifecycle = .ready then s.begin else s.illegal "begin_transaction"
  | .send draft ticket present =>
    if s.lifecycle = .inTransaction then s.send draft ticket present else s.illegal "send"
  | .flush => if s.lifecycle = .closed then s.illegal "flush" else s.askFlush .report
  | .finish .commit => s.finish "commit_transaction" .commit
  | .finish .abort => s.finish "abort_transaction" .abort
  | .listing topic =>
    if s.lifecycle = .closed then s.illegal "partitions_for"
    else s.ask (.listing topic) (.listing topic)
  | .close => s.close

/-- What the broker says of a topic is kept. -/
def learn (s : Session) (topic : String) (infos : List PartitionInfo) : Session :=
  { s with shared := { s.shared with topics := s.shared.topics.put topic infos } }

/-- A refusal of the request to end the transaction. A newer identity is
remembered: nothing can be delivered any more. -/
def finishRefused (s : Session) (back : Lifecycle) (e : BrokerError) : Session × List Effect :=
  let shared := match e, s.identity with
    | .fenced .., some id => s.shared.latch (.ofBroker s.config.txid id e)
    | _, _ => s.shared
  { s with lifecycle := back, shared := shared }.failed (.ofBroker s.config.txid s.identity e)

/-- The session's own request is answered. -/
def answered (s : Session) (answer : Answer) : Session × List Effect :=
  match s.wait, answer with
  | .identity, .ok (.identity id) => (s.acquire id false).finished (.ok .done)
  | .identity, .error e => s.failed (.ofBroker s.config.txid none e)
  | .listing topic, .ok (.partitions infos) =>
    (s.learn topic infos).finished (.ok (.partitions infos))
  | .listing _, .error e => s.failed (.ofBroker s.config.txid s.identity e)
  | .routing draft ticket present, .ok (.partitions infos) =>
    let (s, target) := (s.learn draft.topic infos).route draft infos.length
    s.enqueue draft ticket present target
  | .routing draft ticket present, .error e =>
    let err := match s.identity with
      | some id => DeliveryError.ofBroker s.config.txid id e
      | none => .transport e
    s.enqueue draft ticket present (.error err)
  | .finish outcome _, .ok .finished => s.conclude outcome
  | .finish _ back, .error e => s.finishRefused back e
  | _, _ => (s, [])

/-- The session looks again for what it waits for. -/
def woken (s : Session) : Session × List Effect :=
  match s.wait with
  | .room m next => s.push m next
  | .flush next =>
    match s.worker with
    | some worker =>
      if worker.flushed then s.flushed next
      else if s.isWorkerGone then s.failed (.internal "delivery worker stopped")
      else (s, [])
    | none => s.failed (.internal "delivery worker stopped")
  | .drain =>
    if s.isWorkerGone then
      let (s, returned) := s.finished (.ok .done)
      (s, .disconnected :: returned)
    else (s, [])
  | _ => (s, [])

/-- A close has waited long enough: the worker is killed. -/
def outwaited (s : Session) : Session × List Effect :=
  match s.wait with
  | .drain =>
    let (s, effects) := s.deliver Delivery.kill
    let (s, returned) := s.finished (.ok .done)
    (s, effects ++ .disconnected :: returned)
  | _ => (s, [])

/-- One event. -/
def step (s : Session) : Event → Session × List Effect
  | .called operation =>
    match s.wait with
    | .nothing => s.called operation
    | _ => (s, [])
  | .answered answer => s.answered answer
  | .woken => s.woken
  | .outwaited => s.outwaited
  | .abandoned => ({ s with attached := false, wait := .nothing }, [])
  | .round visible => s.deliver (·.round visible)
  | .delivered answer => s.deliver (·.answered answer)
  | .drained => if s.attached then (s, []) else s.deliver fun d => (d.drained, [])
  | .died => s.deliver Delivery.kill

/-- A list of events, and all effects in order. -/
def run (s : Session) : List Event → Session × List Effect
  | [] => (s, [])
  | e :: es =>
    let (s, first) := s.step e
    let (s, rest) := s.run es
    (s, first ++ rest)

theorem run_append (s : Session) : ∀ es fs : List Event,
    s.run (es ++ fs) =
      (((s.run es).1.run fs).1, (s.run es).2 ++ ((s.run es).1.run fs).2)
  | [], fs => by simp [run]
  | e :: es, fs => by simp [run, run_append (s.step e).1 es fs]

/-- What every step keeps, every run keeps. -/
theorem run_keeps {P : Session → Prop} (keeps : ∀ s e, P s → P (s.step e).1) :
    ∀ (es : List Event) (s : Session), P s → P (s.run es).1
  | [], _, h => h
  | e :: es, s, h => run_keeps keeps es (s.step e).1 (keeps s e h)

end Session
end FencedLog
