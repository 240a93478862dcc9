/-
# The coordinator

The coordinator gives out identities and decides transactions. A new identity
of a transactional id fences the older ones and aborts what they left open. To
end a transaction again is harmless as long as the outcome agrees with what
the epoch's last transaction became.

Every operation that depends on time is given a reading of the clock.

Key definitions: `Coordinator`, `Coordinator.init`, `Coordinator.enroll`,
`Coordinator.permit`, `Coordinator.finish`, `Coordinator.expire`.
Key theorem: `Coordinator.authorize_ok`.
-/
import FencedLog.Coordinator.Transaction

namespace FencedLog

/-- What the coordinator has counted. -/
structure Tally where
  known : Nat
  ongoing : Nat
  committed : Nat
  aborted : Nat
  expired : Nat
  fenced : Nat
deriving DecidableEq, Inhabited

namespace Tally

def zero : Tally := ⟨0, 0, 0, 0, 0, 0⟩

/-- An ongoing transaction has ended. -/
def ended (t : Tally) : Outcome → Tally
  | .commit => { t with ongoing := t.ongoing - 1, committed := t.committed + 1 }
  | .abort => { t with ongoing := t.ongoing - 1, aborted := t.aborted + 1 }

end Tally

structure Coordinator where
  transactions : Table String Transaction
  /-- The next producer number. -/
  next : Int
  maxTimeout : Span
  tally : Tally
deriving DecidableEq

namespace Coordinator

/-- The first producer number. -/
def firstProducer : Int := 1000

def start (maxTimeout : Span) : Coordinator := ⟨.empty, firstProducer, maxTimeout, .zero⟩

def describe (c : Coordinator) (txid : String) : Option Transaction := c.transactions.get? txid

/-- The entry of a transactional id is replaced. -/
def keep (c : Coordinator) (t : Transaction) : Coordinator :=
  { c with transactions := c.transactions.put t.txid t }

/-- Give a transactional id a new identity: a producer of its own the first
time, the next epoch later. What the last epoch left open is aborted. -/
def init (c : Coordinator) (txid : String) (timeout : Span) :
    Coordinator × Identity × Option Closing :=
  let timeout := timeout.min c.maxTimeout
  match c.describe txid with
  | none =>
    let t := Transaction.fresh txid c.next timeout
    ({ c.keep t with next := c.next + 1, tally := { c.tally with known := c.tally.known + 1 } },
      t.identity, none)
  | some t =>
    let (t, closing, tally) :=
      if t.stage = .ongoing then
        let (t, closing) := t.complete .abort
        (t, some closing, c.tally.ended .abort)
      else (t, none, c.tally)
    let (t, next) := t.bump c.next
    let c := c.keep { t with timeout := timeout }
    ({ c with next := next, tally := tally }, t.identity, closing)

/-- A refused request; refusals by a newer epoch are counted. -/
def refuse {α : Type} (c : Coordinator) (e : BrokerError) : Coordinator × Except BrokerError α :=
  match e with
  | .fenced .. => ({ c with tally := { c.tally with fenced := c.tally.fenced + 1 } }, .error e)
  | e => (c, .error e)

/-- The entry that a request may act on. -/
def authorize (c : Coordinator) (txid : String) (id : Identity) : Except BrokerError Transaction :=
  match c.describe txid with
  | none => .error (.unmappedProducer txid id.producer)
  | some t => (t.validate id).map fun _ => t

/-- Enroll partitions in the transaction, and start one if none is ongoing. -/
def enroll (c : Coordinator) (now : Span) (txid : String) (id : Identity)
    (partitions : List TopicPartition) : Coordinator × Except BrokerError Unit :=
  match c.authorize txid id with
  | .error e => c.refuse e
  | .ok t =>
    let tally := if t.stage = .ongoing then c.tally
      else { c.tally with ongoing := c.tally.ongoing + 1 }
    ({ c.keep (t.enroll now partitions) with tally := tally }, .ok ())

/-- Whether the identity may write to a partition now. -/
def permit (c : Coordinator) (txid : String) (id : Identity) (p : TopicPartition) :
    Coordinator × Except BrokerError Unit :=
  match c.authorize txid id with
  | .error e => c.refuse e
  | .ok t =>
    if t.stage ≠ .ongoing then
      (c, .error (.invalidState ("produce to " ++ p.text
        ++ " requires an ongoing transaction, state is " ++ t.stage.text)))
    else if t.partitions.contains p then (c, .ok ())
    else (c, .error (.invalidState ("partition " ++ p.text
      ++ " is not registered with the transaction")))

/-- A request to end the transaction of an epoch that is over. -/
def finishStale (c : Coordinator) (t : Transaction) (id : Identity) (outcome : Outcome) :
    Coordinator × Except BrokerError (Option Closing) :=
  match t.outcomes.get? id.epoch with
  | none => (c, .ok none)
  | some became =>
    if became = outcome then (c, .ok none)
    else c.refuse (.fenced t.txid id.epoch t.identity.epoch)

/-- End the transaction of an identity. There may be nothing to do: then the
answer is positive, without a closing. -/
def finish (c : Coordinator) (txid : String) (id : Identity) (outcome : Outcome) :
    Coordinator × Except BrokerError (Option Closing) :=
  match c.describe txid with
  | none => (c, .error (.unmappedProducer txid id.producer))
  | some t =>
    if id.producer = t.identity.producer ∧ id.epoch < t.identity.epoch then
      c.finishStale t id outcome
    else match t.validate id with
      | .error e => c.refuse e
      | .ok () =>
        match t.stage with
        | .ongoing =>
          let (t, closing) := t.complete outcome
          ({ c.keep t with tally := c.tally.ended outcome }, .ok (some closing))
        | .empty => (c, .ok none)
        | .completed became =>
          if became = outcome then (c, .ok none)
          else (c, .error (.invalidState ("cannot " ++ outcome.text ++ " transaction in state "
            ++ t.stage.text)))

/-- The rows of the coordinator's table after expiry, with the next producer
number and the closings. The rows are walked in the order in which their ids
first came; a coordinator may keep its table in any other order. On the order
depends which new producer number each id gets when several of them have used up
their epochs, and in which order the closings come, and with them the markers of
different producers in a log. What expires, and all else of each row, does not. -/
def expireRows (now : Span) : List (String × Transaction) → Int →
    List (String × Transaction) × Int × List Closing
  | [], next => ([], next, [])
  | (txid, t) :: rows, next =>
    if t.expired now then
      let (t, closing) := t.complete .abort
      let (t, next) := t.bump next
      let (rows, next, closings) := expireRows now rows next
      ((txid, t) :: rows, next, closing :: closings)
    else
      let (rows, next, closings) := expireRows now rows next
      ((txid, t) :: rows, next, closings)

/-- Abort every transaction that has outlived its timeout, and fence its
identity. -/
def expire (c : Coordinator) (now : Span) : Coordinator × List Closing :=
  let (rows, next, closings) := expireRows now c.transactions.rows c.next
  let n := closings.length
  ({ c with
      transactions := ⟨rows⟩
      next := next
      tally := { c.tally with
        ongoing := c.tally.ongoing - n
        aborted := c.tally.aborted + n
        expired := c.tally.expired + n } },
    closings)

/-- A request is acted on only under the current identity. -/
theorem authorize_ok {c : Coordinator} {txid : String} {id : Identity} {t : Transaction}
    (h : c.authorize txid id = .ok t) : c.describe txid = some t ∧ id = t.identity := by
  unfold authorize at h
  cases hd : c.describe txid with
  | none => simp [hd] at h
  | some u =>
    rw [hd] at h
    cases hv : u.validate id with
    | error e => simp [hv, Except.map] at h
    | ok x =>
      simp only [hv, Except.map, Except.ok.injEq] at h
      subst h
      exact ⟨rfl, Transaction.validate_ok_iff.1 hv⟩

end Coordinator
end FencedLog
