/-
# Who moves when

One actor moves at a time: the owner, who calls an operation and waits for its
end, the workers, and the watch. Workers and the watch move only while the
owner waits, in the order in which they were woken, each as far as it can;
between two operations they move until none can. When nobody can move, the
clock goes to the next moment at which something happens; of those who are
woken then the owner moves first, and the others follow in the order in which
their waits began.

All of it is bounded by the work at hand, so the loops carry a bound that is
computed from it.

Key definitions: `World.serve`, `World.settle`, `World.advance`, `World.await`,
`World.call`, `World.close`, `World.transmit`, `World.sleep`.
-/
import FencedLog.Network.World

namespace FencedLog
namespace World

/-! ### The workers -/

/-- A worker takes one step, if it can take one. -/
def serveOne (w : World) (number : Nat) (p : Party) : World × Bool :=
  match p.flight with
  | some flight =>
    match w.look flight with
    | (w, .pending flight) =>
      ({ w with parties := w.parties.put number { p with flight := some flight } }, false)
    | (w, .answered answer) =>
      let w := { w with parties := w.parties.put number { p with flight := none } }
      (w.moveParty number (.delivered answer), true)
    | (w, .deadly) => (w.moveParty number .died, false)
  | none =>
    match p.session.worker with
    | some worker =>
      if canMove p.session then
        if worker.queue.isEmpty then (w.moveParty number .drained, false)
        else (w.moveParty number (.round worker.queue.length), true)
      else (w, false)
    | none => (w, false)

/-- A worker moves as far as it can, in at most `bound` steps. -/
def serveUpTo (w : World) (number : Nat) : Nat → World
  | 0 => w
  | bound + 1 =>
    match w.parties.get? number with
    | none => w
    | some p =>
      match w.serveOne number p with
      | (w, true) => w.serveUpTo number bound
      | (w, false) => w

/-- A worker moves as far as it can: each message costs at most a round, an
enrollment and an append. -/
def serveWorker (w : World) (number : Nat) : World :=
  match w.parties.get? number with
  | some p => w.serveUpTo number (4 * p.load)
  | none => w

/-! ### The watch -/

/-- The clock that transactions are timed by moves on. -/
def passReading (w : World) (span : Span) : World := { w with reading := w.reading.add span }

/-- Expire what has outlived its timeout by now. -/
def expireNow (w : World) : World × List String :=
  let (broker, txids) := w.broker.expire w.reading
  ({ w with broker := broker }, txids)

/-- What passes on the transactions' clock before the watch looks. -/
def blink : Span := ⟨2000⟩

/-- The watch looks, and waits for the next time. -/
def serveWatch (w : World) : World :=
  match w.watch with
  | some v =>
    { (w.passReading blink).expireNow.1 with
      watch := some { v with moment := v.after w.now, order := w.waits }
      waits := w.waits + 1 }
  | none => w

/-! ### All of them -/

/-- An actor moves as far as it can. -/
def serve (w : World) : Actor → World
  | .worker number => w.serveWorker number
  | .watch => w.serveWatch

/-- Those who were ready have moved. -/
def serveReady (w : World) : World :=
  let ready := w.ready
  let w := ready.foldl serve w
  { w with ready := w.ready.filter (!ready.contains ·) }

/-- Between two operations the workers move until none can. -/
def settle (w : World) : World := w.serveReady

/-! ### The clock -/

/-- The moments at which something happens beside the owner: to whom, and its
place among the waits. -/
def actorMoments (w : World) : List (Nat × Nat × Actor) :=
  (w.parties.rows.flatMap fun (number, p) => match p.flight with
    | some flight => flight.moments.map fun moment => (moment, flight.order, .worker number)
    | none => [])
  ++ (match w.watch with
    | some v => [(v.moment, v.order, .watch)]
    | none => [])

/-- The moments at which something happens to the owner. -/
def ownerMoments (w : World) : List Nat :=
  (match w.flight with
    | some flight => flight.moments
    | none => [])
  ++ w.alarm.toList

/-- The next moment at which something happens. -/
def nextMoment (w : World) : Option Nat :=
  ((w.ownerMoments ++ w.actorMoments.map (·.1)).filter (w.now < ·)).min?

/-- Those to whom something happens at a moment, in the order in which their
waits began. -/
def wokenAt (w : World) (moment : Nat) : List Actor :=
  let due := (w.actorMoments.filter (·.1 = moment)).map (·.2)
  ((sortByKey due).map (·.2)).eraseDups

/-- The clock goes to the next moment, if there is one. -/
def advance (w : World) : Option World :=
  w.nextMoment.map fun moment =>
    { w with now := moment, ready := w.ready ++ w.wokenAt moment }

/-! ### The owner -/

/-- How often a watch can look before the owner stops waiting. -/
def looks (w : World) : Nat :=
  match w.watch, w.alarm with
  | some _, some alarm => alarm - w.now + 1
  | _, _ => 0

/-- The bound of a wait: every record and message may cost two requests of two
moments each, the owner has its own, and a watch looks at most once at a
moment. -/
def patience (w : World) : Nat :=
  8 * w.parties.rows.foldl (fun load (_, p) => load + p.load) 0 + 2 * w.looks + 64

/-- The owner waits until `look` finds a result. Nothing is found when nothing
will ever happen again. -/
def await {α : Type} (look : World → World × Option α) : Nat → World → World × Option α
  | 0, w => (w, none)
  | bound + 1, w =>
    match look w with
    | (w, some a) => (w, some a)
    | (w, none) =>
      if w.ready.isEmpty then
        match w.advance with
        | some w => await look bound w
        | none => (w, none)
      else await look bound w.serveReady

/-- The owner looks after the operation of a session: first after its request,
then after what the worker owes it, then at the clock. -/
def attend (number : Nat) : Nat → World → World × Option (Except SessionError Report)
  | 0, w => (w, w.outcome)
  | bound + 1, w =>
    match w.outcome with
    | some r => (w, some r)
    | none =>
      match w.flight with
      | some flight =>
        match w.look flight with
        | (w, .pending flight) => ({ w with flight := some flight }, none)
        | (w, .answered answer) =>
          attend number bound ({ w with flight := none }.moveParty number (.answered answer))
        | (w, .deadly) => ({ w with flight := some { flight with course := .lost } }, none)
      | none =>
        let w := w.moveParty number .woken
        if w.outcome.isSome || w.flight.isSome then attend number bound w
        else match w.alarm with
          | some alarm =>
            if alarm ≤ w.now then attend number bound (w.moveParty number .outwaited)
            else (w, none)
          | none => (w, none)

/-- An operation asks, flushes, asks and returns at most once each. -/
def attention : Nat := 8

/-- The owner has its result and waits for nothing any more. -/
def release (w : World) : World := { w with flight := none, alarm := none, outcome := none }

/-- The owner calls an operation and waits for its end, a close no longer than
until `alarm`. -/
def callUntil (w : World) (number : Nat) (operation : Operation) (alarm : Option Nat) :
    World × Option (Except SessionError Report) :=
  let w := { w with alarm := alarm }.moveParty number (.called operation)
  let (w, r) := await (attend number attention) w.patience w
  (w.release, r)

/-- The owner calls an operation and waits for its end. -/
def call (w : World) (number : Nat) (operation : Operation) :
    World × Option (Except SessionError Report) :=
  w.callUntil number operation none

/-- The owner closes a session; its worker has `timeout` to finish. -/
def close (w : World) (number : Nat) (timeout : Span) : World :=
  (w.callUntil number .close (some (w.now + timeout.ticks))).1

/-- The owner waits for the answer to a request of its own. -/
def attendFlight (w : World) : World × Option Answer :=
  match w.flight with
  | none => (w, none)
  | some flight =>
    match w.look flight with
    | (w, .pending flight) => ({ w with flight := some flight }, none)
    | (w, .answered answer) => ({ w with flight := none }, some answer)
    | (w, .deadly) => ({ w with flight := some { flight with course := .lost } }, none)

/-- The owner makes a request over a link, outside of any session. `planned`
says whether the request is noted and the link's plan followed. -/
def transmit (w : World) (link : Nat) (planned : Bool) (q : Request) : World × Option Answer :=
  let (w, flight) := if planned then w.depart link q none else w.departPlain link q
  let w := { w with flight := some flight }
  let (w, r) := await attendFlight w.patience w
  (w.release, r)

/-- The owner waits until a moment. -/
def sleepUntil (w : World) (moment : Nat) : World :=
  let w := { w with alarm := some moment }
  let look (w : World) : World × Option Unit :=
    (w, if w.alarm.all (· ≤ w.now) then some () else none)
  (await look w.patience w).1.release

/-- The owner waits for a span of time. -/
def sleep (w : World) (span : Span) : World := w.sleepUntil (w.now + span.ticks)

end World
end FencedLog
