/-
# What the owner does

The owner knows sessions and links by name. It opens sessions, gives them up,
sends records through them, and collects what has happened.

Key definitions: `World.openSession`, `World.dropSession`, `World.sendAll`,
`World.expire`, `World.collect`.
-/
import FencedLog.Network.Schedule

namespace FencedLog

/-- The link a session is opened with. -/
inductive Connection where
  | missing
  /-- A link that exists, by its name. -/
  | shared (name : String)
  /-- A link of its own, known by the session's name. -/
  | own (latency : Option Span) (faults : List Fault)

namespace World

/-- The party of a session. -/
def partyOf? (w : World) (name : String) : Option Nat := w.sessionNames.get? name

/-- The session of a name. -/
def session? (w : World) (name : String) : Option Session :=
  ((w.partyOf? name).bind w.parties.get?).map (·.session)

/-- Give up a session without closing it. What is queued is still delivered. -/
def dropSession (w : World) (name : String) : World × Bool :=
  match w.partyOf? name with
  | some number =>
    ({ w with sessionNames := w.sessionNames.erase name }.moveParty number .abandoned, true)
  | none => (w, false)

/-- The link of a connection, if there is one. -/
def connect (w : World) (name : String) : Connection → World × Option Nat
  | .missing => (w, none)
  | .shared link => (w, w.linkNames.get? link)
  | .own latency faults =>
    let (w, number) := w.addLink latency faults
    (w.nameLink name number, some number)

/-- Open a session under a name. An older session of that name is given up, but
only for one that can be opened. -/
def openSession (w : World) (name : String) (config : SessionConfig) (connection : Connection) :
    World × Except SessionError Unit :=
  let (w, link) := w.connect name connection
  match Session.build config link.isSome with
  | .error e => (w, .error e)
  | .ok session =>
    let (w, number) := (w.dropSession name).1.addParty session (link.getD 0)
    ({ w with sessionNames := w.sessionNames.put name number }, .ok ())

/-- Send records one after the other, up to the first that is refused. The
accepted ones are numbered on; answers how many there are. -/
def sendAll (w : World) (number : Nat) : List (Draft × Listener) → World × Except SessionError Nat
  | [] => (w, .ok 0)
  | (draft, listener) :: rest =>
    match w.call number (.send draft ⟨w.tickets, listener⟩ w.present) with
    | (w, some (.error e)) => (w, .error e)
    | (w, _) =>
      match { w with tickets := w.tickets + 1 }.sendAll number rest with
      | (w, .ok n) => (w, .ok (n + 1))
      | (w, .error e) => (w, .error e)

/-! ### The broker -/

/-- How long the owner lets pass before it asks what has expired. -/
def grace : Span := .ofMillis 3

/-- Transactions with shorter timeouts are given that time before they are
looked at. -/
def brief : Span := .ofMillis 1

/-- Expire what has outlived its timeout a little later. -/
def expire (w : World) : World × List String := (w.passReading grace).expireNow

/-- What the coordinator knows of a transactional id, and whether its
transaction has expired. -/
def describe (w : World) (txid : String) : World × Option (Transaction × Bool) :=
  match w.broker.coordinator.describe txid with
  | none => (w, none)
  | some t =>
    let w := if t.stage = .ongoing ∧ t.timeout ≤ brief then w.passReading grace else w
    (w, some (t, t.expired w.reading))

/-- Keep a watch over the timeouts for a span of time. It looks first when the
owner waits, so not at all in no time; without an interval it is not kept. -/
def runExpiry (w : World) (interval span : Span) : World :=
  let w := w.passReading grace
  if interval.isZero then w.sleep span
  else
    let watch : Watch := ⟨w.now, interval, w.now, w.waits⟩
    let w := { w with watch := some watch, ready := w.ready ++ [Actor.watch] }.sleep span
    { w with watch := none, ready := w.ready.filter (· ≠ Actor.watch) }

/-! ### What has happened -/

/-- The uses of links and the ends of sends since the last time. Callbacks
stand in the order in which they ran, and resolved futures by number. -/
def collect (w : World) : World × List Note × List (Nat × Completion) :=
  ({ w with notes := [], called := [], resolved := [] }, w.notes.reverse,
    w.called.reverse ++ sortByKey w.resolved.reverse)

end World
end FencedLog
