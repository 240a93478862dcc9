/-
# Links

A link carries requests to the broker. It may take time, it may be closed, and
it may have faults planned: each is for one kind of request, lets some of them
pass, and then strikes a number of times.

Times are whole milliseconds of a clock that moves only while everyone waits.

Key definitions: `Fault`, `strike`, `Link`, `Flight`, `Link.depart`,
`Flight.look`.
-/
import FencedLog.Broker.Basic

namespace FencedLog

/-- The kinds of requests. -/
inductive RequestKind where
  | init
  | enroll
  | append
  | finish
  | listing
deriving DecidableEq

def Request.kind : Request → RequestKind
  | .init .. => .init
  | .enroll .. => .enroll
  | .append .. => .append
  | .finish .. => .finish
  | .listing .. => .listing

/-- What a fault does to a request. -/
inductive Mishap where
  /-- Refused on the way; the broker never sees it. -/
  | before (e : BrokerError)
  /-- Handled by the broker; a positive answer is replaced by an error. -/
  | after (e : BrokerError)
  /-- Lost on the way, without an answer. -/
  | hang
  /-- Handled by the broker; a positive answer is lost. -/
  | hangAfter
  /-- Answered on the way: a topic has that many partitions, without leaders. -/
  | count (n : Nat)
  /-- Whoever makes the request dies. -/
  | panic
deriving DecidableEq

/-- A planned fault. -/
structure Fault where
  kind : RequestKind
  mishap : Mishap
  /-- How many requests still pass. -/
  skip : Nat
  /-- How many times it still strikes. -/
  times : Nat
deriving DecidableEq

/-- What the plan does to a request of a kind: the first fault for it that is
not used up decides. -/
def strike (kind : RequestKind) : List Fault → Option Mishap × List Fault
  | [] => (none, [])
  | f :: fs =>
    if f.kind = kind ∧ 0 < f.times then
      if 0 < f.skip then (none, { f with skip := f.skip - 1 } :: fs)
      else (some f.mishap, { f with times := f.times - 1 } :: fs)
    else
      let (mishap, fs) := strike kind fs
      (mishap, f :: fs)

/-- What becomes of a positive answer. -/
inductive Ending where
  | plain
  | replaced (e : BrokerError)
  | lost
deriving DecidableEq

/-- Where a request is. -/
inductive Course where
  /-- It is answered already. -/
  | decided (answer : Answer)
  /-- It kills whoever made it. -/
  | deadly
  /-- It reaches the broker at `arrival`. -/
  | travelling (arrival : Nat) (ending : Ending)
  /-- No answer will ever come. -/
  | lost

/-- A request that is on its way. -/
structure Flight where
  request : Request
  course : Course
  /-- When the wait for the answer ends, and how long it was meant to be. -/
  deadline : Option (Nat × Span)
  /-- Flights and watches are numbered in the order in which their waits began. -/
  order : Nat

structure Link where
  latency : Option Span
  closed : Bool
  faults : List Fault

namespace Link

/-- The course of a request that reaches the link itself. -/
def passage (l : Link) (now : Nat) (ending : Ending) : Course :=
  if l.closed then .decided (.error .connectionClosed)
  else .travelling (now + (l.latency.getD .zero).ticks) ending

/-- The course of a request that a fault has struck. -/
def mishapCourse (l : Link) (now : Nat) (q : Request) : Option Mishap → Course
  | none => l.passage now .plain
  | some (.before e) => .decided (.error e)
  | some (.after e) => l.passage now (.replaced e)
  | some .hang => .lost
  | some .hangAfter => l.passage now .lost
  | some .panic => .deadly
  | some (.count n) =>
    match q with
    | .listing topic => .decided (.ok (.partitions (Broker.numbered topic none n)))
    | _ => l.passage now .plain

/-- A request departs, and the plan is followed. -/
def depart (l : Link) (now : Nat) (q : Request) : Link × Course :=
  let (mishap, faults) := strike q.kind l.faults
  ({ l with faults := faults }, l.mishapCourse now q mishap)

end Link

namespace Flight

/-- The moments at which something happens to the flight. -/
def moments (f : Flight) : List Nat :=
  (match f.course with
    | .travelling arrival _ => [arrival]
    | _ => [])
  ++ (match f.deadline with
    | some (deadline, _) => [deadline]
    | none => [])

/-- The answer of one whose wait is over. -/
def overdue (f : Flight) (now : Nat) : Option Answer :=
  match f.deadline with
  | some (deadline, span) => if deadline ≤ now then some (.error (.timedOut span)) else none
  | none => none

end Flight

/-- What is known of a flight when one looks. -/
inductive Sight where
  | pending (f : Flight)
  | answered (answer : Answer)
  | deadly

/-- What the answer to a request becomes on its way back, if it comes back. -/
def Ending.back (ending : Ending) (answer : Answer) : Option Answer :=
  match ending, answer with
  | _, .error e => some (.error e)
  | .plain, .ok r => some (.ok r)
  | .replaced e, .ok _ => some (.error e)
  | .lost, .ok _ => none

/-- A flight that has no answer yet: the wait for it may be over. -/
def Flight.unanswered (f : Flight) (now : Nat) : Sight :=
  match f.overdue now with
  | some answer => .answered answer
  | none => .pending f

/-- Look after a flight: if it has arrived the broker handles it, by the clock
reading `reading`. An answer comes before the end of the wait. -/
def Flight.look (f : Flight) (now : Nat) (reading : Span) (b : Broker) : Broker × Sight :=
  match f.course with
  | .decided answer => (b, .answered answer)
  | .deadly => (b, .deadly)
  | .lost => (b, f.unanswered now)
  | .travelling arrival ending =>
    if arrival ≤ now then
      let (b, answer) := b.handle reading f.request
      match ending.back answer with
      | some answer => (b, .answered answer)
      | none => (b, { f with course := .lost }.unanswered now)
    else (b, f.unanswered now)

end FencedLog
