/-
# A session and the world around it

A session, its worker and a broker, with everybody else's operations on that
broker, in any order. The session and its worker have a line each: a request
is sent, it reaches the broker or is refused on the way, and the answer is
heard later; an answer may be lost on the way back. What others do may come
between any two of these.

Beside it stand the call that the owner has made last and the chapter: what
was sent, enrolled, appended and acknowledged since a transaction was begun.

Key definitions: `Line`, `Chapter`, `Scene`, `Act`, `Scene.act`, `Scene.Fair`,
`Reaches`.
Key theorem: `Reaches.keeps`.
-/
import FencedLog.Proofs.Broker.Attribution
import FencedLog.Proofs.Delivery.Moves
import FencedLog.Session.Operation

namespace FencedLog

/-- What is on the way between a client and the broker. -/
inductive Line where
  | idle
  | sent (q : Request)
  | replied (answer : Answer)

/-- A send that the session has accepted. -/
structure Sent where
  draft : Draft
  ticket : Ticket
  present : Int
deriving DecidableEq

/-- A record that the broker has appended for the session's worker, and the
transaction in which it did. -/
structure Writ where
  partition : TopicPartition
  offset : Nat
  record : Record
  txn : Option Txn

/-- What the broker appends for records at consecutive offsets. -/
def written (p : TopicPartition) (txn : Option Txn) : Nat → List Record → List Writ
  | _, [] => []
  | base, r :: rs => ⟨p, base, r, txn⟩ :: written p txn (base + 1) rs

/-- What has happened since a transaction was begun. -/
structure Chapter where
  sends : List Sent
  /-- The enrollments that the broker has carried out, and in which
  transaction. -/
  enrollments : List (List TopicPartition × Option Txn)
  writs : List Writ
  acks : List (Ticket × Placement)

namespace Chapter

def empty : Chapter := ⟨[], [], [], []⟩

/-- The broker has answered a request of the worker. -/
def note (chapter : Chapter) (txn : Option Txn) : Request → Answer → Chapter
  | .enroll _ _ ps, .ok .enrolled =>
    { chapter with enrollments := chapter.enrollments ++ [(ps, txn)] }
  | .append _ _ p records, .ok (.appended base) =>
    { chapter with writs := chapter.writs ++ written p txn base records }
  | _, _ => chapter

theorem note_error (chapter : Chapter) (txn : Option Txn) (q : Request) (e : BrokerError) :
    chapter.note txn q (.error e) = chapter := by
  cases q <;> rfl

/-- The transaction in which a partition was enrolled last. -/
def enrolledIn (chapter : Chapter) (p : TopicPartition) : Option Txn :=
  (chapter.enrollments.reverse.find? fun e => e.1.contains p).bind (·.2)

/-- The transaction of the last enrollment. -/
def newest (chapter : Chapter) : Option Txn := chapter.enrollments.getLast?.bind (·.2)

end Chapter

/-- A call of the owner: where the session stood, and what came of it. -/
structure Call where
  operation : Operation
  lifecycle : Lifecycle
  result : Option (Except SessionError Report)
deriving DecidableEq

structure Scene where
  chronicle : Chronicle
  session : Session
  /-- The session's line. -/
  own : Line
  /-- Its worker's line. -/
  work : Line
  call : Option Call
  chapter : Chapter

/-- One of the two lines. -/
inductive Side where
  | own
  | work

/-- What may happen next. -/
inductive Act where
  /-- The owner calls an operation, unless one is running. -/
  | call (operation : Operation)
  /-- Somebody else does something to the broker. -/
  | others (op : Broker.Op)
  /-- The request on a line reaches the broker; its answer may be lost, and is
  an error then. -/
  | reach (side : Side) (now : Span) (lost : Option BrokerError)
  /-- The request on a line fails on the way to the broker. -/
  | refuse (side : Side) (e : BrokerError)
  /-- The answer on a line is heard. -/
  | hear (side : Side)
  | wake
  | outwait
  | round (visible : Nat)
  | drain
  | die

namespace Scene

/-- A session that has just been built, beside a broker without topics. -/
def start (broker : BrokerConfig) (config : SessionConfig) : Scene :=
  ⟨.start broker, ⟨config, .uninitialized, none, false, false, 0, .nothing, .start, none⟩,
    .idle, .idle, none, .empty⟩

/-- The running call ends. A chapter begins when a call to begin succeeds, and
a send is accepted when its call succeeds. -/
def returned (σ : Scene) (r : Except SessionError Report) : Scene :=
  match σ.call with
  | none => σ
  | some call =>
    let σ := { σ with call := some { call with result := some r } }
    match call.operation, r with
    | .begin, .ok _ => { σ with chapter := .empty }
    | .send draft ticket present, .ok _ =>
      { σ with
        chapter := { σ.chapter with sends := σ.chapter.sends ++ [⟨draft, ticket, present⟩] } }
    | _, _ => σ

/-- One effect of the session. -/
def feel (σ : Scene) : Effect → Scene
  | .asked q => { σ with own := .sent q }
  | .deed (.request q) => { σ with work := .sent q }
  | .deed (.completed t (.ok placement)) =>
    { σ with chapter := { σ.chapter with acks := σ.chapter.acks ++ [(t, placement)] } }
  | .deed (.completed _ (.error _)) | .deed (.dropped _) | .disconnected => σ
  | .returned r => σ.returned r

/-- One event of the session, with its effects. -/
def perform (σ : Scene) (e : Event) : Scene :=
  (σ.session.step e).2.foldl feel { σ with session := (σ.session.step e).1 }

/-- Nobody waits on the line of a worker that is gone. -/
def hangUp (σ : Scene) : Scene := if σ.session.isWorkerGone then { σ with work := .idle } else σ

/-- The transaction that is open for the session's transactional id. -/
def current (σ : Scene) : Option Txn :=
  σ.chronicle.ledger.current σ.chronicle.broker.coordinator σ.session.config.txid

/-- What comes back for a request, if its answer may be lost. -/
def reply (answer : Answer) : Option BrokerError → Line
  | none => .replied answer
  | some e => .replied (.error e)

/-- A request of the session reaches the broker. -/
def reachOwn (σ : Scene) (now : Span) (lost : Option BrokerError) (q : Request) : Scene :=
  { σ with
    chronicle := σ.chronicle.act (.request now q)
    own := reply (σ.chronicle.broker.handle now q).2 lost }

/-- A request of the worker reaches the broker. -/
def reachWork (σ : Scene) (now : Span) (lost : Option BrokerError) (q : Request) : Scene :=
  let σ' := { σ with
    chronicle := σ.chronicle.act (.request now q)
    work := reply (σ.chronicle.broker.handle now q).2 lost }
  { σ' with chapter := σ.chapter.note σ'.current q (σ.chronicle.broker.handle now q).2 }

/-- One act. -/
def act (σ : Scene) : Act → Scene
  | .call operation =>
    match σ.session.wait with
    | .nothing =>
      { σ with call := some ⟨operation, σ.session.lifecycle, none⟩ }.perform (.called operation)
    | _ => σ
  | .others op => { σ with chronicle := σ.chronicle.act op }
  | .reach .own now lost =>
    match σ.own with
    | .sent q => σ.reachOwn now lost q
    | _ => σ
  | .reach .work now lost =>
    match σ.work with
    | .sent q => σ.reachWork now lost q
    | _ => σ
  | .refuse .own e =>
    match σ.own with
    | .sent _ => { σ with own := .replied (.error e) }
    | _ => σ
  | .refuse .work e =>
    match σ.work with
    | .sent _ => { σ with work := .replied (.error e) }
    | _ => σ
  | .hear .own =>
    match σ.own with
    | .replied answer => { σ with own := .idle }.perform (.answered answer)
    | _ => σ
  | .hear .work =>
    match σ.work with
    | .replied answer => { σ with work := .idle }.perform (.delivered answer)
    | _ => σ
  | .wake => σ.perform .woken
  | .outwait => (σ.perform .outwaited).hangUp
  | .round visible => σ.perform (.round visible)
  | .drain => σ.perform .drained
  | .die => (σ.perform .died).hangUp

/-- The session has this identity, or is about to hear of it. -/
def Holds (σ : Scene) (id : Identity) : Prop :=
  σ.session.identity = some id ∨ σ.own = .replied (.ok (.identity id))

/-- An operation that writes under the session's identity. -/
def Writes (σ : Scene) (op : Broker.Op) : Prop :=
  ∃ id, σ.Holds id ∧ ((∃ now ps, op = .request now (.enroll σ.session.config.txid id ps)) ∨
    ∃ now p records, op = .request now (.append σ.session.config.txid id p records))

/-- What others may do to a session whose identity they may have adopted: they
finish what it has begun, but do not write for it. -/
def Fair (σ : Scene) : Act → Prop
  | .others op => ¬ σ.Writes op
  | _ => True

end Scene

/-- The scenes that are reached from `σ` by acts that `allowed` admits. -/
inductive Reaches (allowed : Scene → Act → Prop) (σ : Scene) : Scene → Prop where
  | refl : Reaches allowed σ σ
  | step {τ : Scene} (h : Reaches allowed σ τ) (a : Act) (ha : allowed τ a) :
      Reaches allowed σ (τ.act a)

/-- What every admitted act keeps holds of every scene that is reached. -/
theorem Reaches.keeps {allowed : Scene → Act → Prop} {σ τ : Scene} {P : Scene → Prop}
    (h : Reaches allowed σ τ) (hσ : P σ)
    (keeps : ∀ ρ a, P ρ → allowed ρ a → P (ρ.act a)) : P τ := by
  induction h with
  | refl => exact hσ
  | step _ a ha ih => exact keeps _ a ih ha

/-- Several acts, one after another. -/
def Scene.run (σ : Scene) : List Act → Scene
  | [] => σ
  | a :: as => (σ.act a).run as

/-- Each of the acts is admitted when its turn has come. -/
def Scene.Admits (allowed : Scene → Act → Prop) (σ : Scene) : List Act → Prop
  | [] => True
  | a :: as => allowed σ a ∧ (σ.act a).Admits allowed as

theorem Reaches.run {allowed : Scene → Act → Prop} {σ : Scene} : ∀ {as : List Act} {τ : Scene},
    Reaches allowed σ τ → τ.Admits allowed as → Reaches allowed σ (τ.run as)
  | [], _, h, _ => h
  | a :: _, _, h, ha => (h.step a ha.1).run ha.2

end FencedLog
