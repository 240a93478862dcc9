/-
# The world

A broker, the links to it, and the sessions that use them. One owner calls the
sessions, one operation after the other; every session has a worker beside it,
and a watch may look for expired transactions. What they do is kept in the
order in which it happened: the requests that were made, and the ends of the
sends.

Key definitions: `World`, `Party`, `Actor`, `World.act`, `World.moveParty`.
-/
import FencedLog.Network.Link
import FencedLog.Network.Watch
import FencedLog.Session.Operation

namespace FencedLog

/-- A session, the link it uses, and its worker's request. -/
structure Party where
  session : Session
  link : Nat
  flight : Option Flight

/-- The messages and records the party's worker still has before it, and the
worker itself. -/
def Party.load (p : Party) : Nat :=
  match p.session.worker with
  | some worker => worker.queue.length + (Delivery.held worker.phase).length + 1
  | none => 1

/-- Put an item in its place by its key, before those with the same key. -/
def insertByKey {α : Type} (x : Nat × α) : List (Nat × α) → List (Nat × α)
  | [] => [x]
  | y :: ys => if x.1 ≤ y.1 then x :: y :: ys else y :: insertByKey x ys

/-- Items in the order of their keys; those with the same key keep theirs. -/
def sortByKey {α : Type} (xs : List (Nat × α)) : List (Nat × α) := xs.foldr insertByKey []

/-- Who moves beside the owner. -/
inductive Actor where
  /-- The worker of a party. -/
  | worker (number : Nat)
  | watch
deriving DecidableEq

/-- What a link was used for. -/
inductive Note where
  | request (q : Request)
  | closed

structure World where
  broker : Broker
  /-- Milliseconds gone by. -/
  now : Nat
  /-- The reading of the clock that transactions are timed by. -/
  reading : Span
  /-- The time of records that bring none. -/
  present : Int
  links : Table Nat Link
  linkNames : Table String Nat
  parties : Table Nat Party
  sessionNames : Table String Nat
  /-- The watch, if one is kept. -/
  watch : Option Watch
  /-- Those who can move, in order. -/
  ready : List Actor
  /-- How many waits for the clock have begun; they are numbered so. -/
  waits : Nat
  /-- How many sends were accepted. -/
  tickets : Nat
  /-- The request the owner waits for. -/
  flight : Option Flight
  /-- When the owner stops waiting. -/
  alarm : Option Nat
  /-- What the running operation has returned. -/
  outcome : Option (Except SessionError Report)
  /-- Uses of links, last one first. -/
  notes : List Note
  /-- Sends whose callbacks ran, last one first. -/
  called : List (Nat × Completion)
  /-- Sends whose futures were resolved. -/
  resolved : List (Nat × Completion)

namespace World

def start (config : BrokerConfig) (present : Int) : World :=
  { broker := .start config
    now := 0
    reading := .zero
    present := present
    links := .empty
    linkNames := .empty
    parties := .empty
    sessionNames := .empty
    watch := none
    ready := []
    waits := 0
    tickets := 0
    flight := none
    alarm := none
    outcome := none
    notes := []
    called := []
    resolved := [] }

/-! ### Links and requests -/

def note (w : World) (n : Note) : World := { w with notes := n :: w.notes }

/-- A new link; answers its number. -/
def addLink (w : World) (latency : Option Span) (faults : List Fault) : World × Nat :=
  let number := w.links.rows.length
  ({ w with links := w.links.put number ⟨latency, false, faults⟩ }, number)

def nameLink (w : World) (name : String) (number : Nat) : World :=
  { w with linkNames := w.linkNames.put name number }

def planFault (w : World) (number : Nat) (fault : Fault) : World :=
  match w.links.get? number with
  | some l => { w with links := w.links.put number { l with faults := l.faults ++ [fault] } }
  | none => w

def closeLink (w : World) (number : Nat) : World :=
  let w := w.note .closed
  match w.links.get? number with
  | some l => { w with links := w.links.put number { l with closed := true } }
  | none => w

/-- The flight of a request that has this course. -/
def fly (w : World) (q : Request) (course : Course) (patience : Option Span) : World × Flight :=
  ({ w with waits := w.waits + 1 },
    ⟨q, course, patience.map fun span => (w.now + span.ticks, span), w.waits⟩)

/-- A request departs: it is noted, and the link's plan is followed. -/
def depart (w : World) (number : Nat) (q : Request) (patience : Option Span) : World × Flight :=
  let w := w.note (.request q)
  match w.links.get? number with
  | some l =>
    let (l, course) := l.depart w.now q
    { w with links := w.links.put number l }.fly q course patience
  | none => w.fly q .lost patience

/-- A request departs past the link's plan. -/
def departPlain (w : World) (number : Nat) (q : Request) : World × Flight :=
  match w.links.get? number with
  | some l => w.fly q (l.passage w.now .plain) none
  | none => w.fly q .lost none

def look (w : World) (f : Flight) : World × Sight :=
  let (broker, sight) := f.look w.now w.reading w.broker
  ({ w with broker := broker }, sight)

/-! ### Parties -/

/-- A send has ended with a completion. -/
def complete (w : World) (t : Ticket) (c : Completion) : World :=
  match t.listener with
  | .callback => { w with called := (t.number, c) :: w.called }
  | .future => { w with resolved := (t.number, c) :: w.resolved }

/-- A send is given up: its future resolves, its callback never runs. -/
def giveUp (w : World) (t : Ticket) : World :=
  match t.listener with
  | .callback => w
  | .future => { w with resolved := (t.number, .error .abandoned) :: w.resolved }

/-- What an effect of a party does to the world. -/
def act (w : World) (number : Nat) (p : Party) : Effect → World
  | .asked q =>
    let (w, flight) := w.depart p.link q (some p.session.config.requestTimeout)
    { w with flight := some flight }
  | .deed (.request q) =>
    let (w, flight) := w.depart p.link q (some p.session.config.requestTimeout)
    { w with parties := w.parties.put number { p with flight := some flight } }
  | .deed (.completed t c) => w.complete t c
  | .deed (.dropped t) => w.giveUp t
  | .returned r => { w with outcome := some r }
  | .disconnected => w.closeLink p.link

/-- Whether the session's worker can move without an answer. -/
def canMove (s : Session) : Bool :=
  match s.worker with
  | some worker =>
    match worker.phase with
    | .idle => !worker.queue.isEmpty || !s.attached
    | _ => false
  | none => false

/-- An event of a party. A request of a worker that is gone is forgotten, and
a worker that can move is made ready. -/
def moveParty (w : World) (number : Nat) (e : Event) : World :=
  match w.parties.get? number with
  | none => w
  | some p =>
    let (session, effects) := p.session.step e
    let flight := if session.isWorkerGone then none else p.flight
    let p := { p with session := session, flight := flight }
    let w := { w with parties := w.parties.put number p }
    let w := effects.foldl (fun w effect => w.act number p effect) w
    if canMove session && !w.ready.contains (.worker number) then
      { w with ready := w.ready ++ [.worker number] }
    else w

/-- A new party for a session; answers its number. -/
def addParty (w : World) (session : Session) (link : Nat) : World × Nat :=
  let number := w.parties.rows.length
  ({ w with parties := w.parties.put number ⟨session, link, none⟩ }, number)

end World
end FencedLog
