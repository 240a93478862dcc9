/-
# Recovery

A transaction that was left open is finished from its token: a fresh session
over a fresh link adopts the identity, ends the transaction, and is closed
again. This is tried as often as a policy says. To finish it more than once
with the same outcome is harmless.

Key definitions: `World.recoverOnce`, `World.recover`.
-/
import FencedLog.Network.Owner
import FencedLog.Retry.Loop

namespace FencedLog

/-- How a transaction is to be recovered. -/
structure Recovery where
  token : ResumeToken
  config : SessionConfig
  outcome : Outcome
  policy : RetryPolicy
  /-- What chance makes of the wait after each try. -/
  share : Nat → Float
  latency : Option Span

/-- A recovery under way: the tries so far, and the faults that are left. -/
structure Recovering where
  world : World
  tries : Nat
  faults : List Fault

namespace World

/-- The result of an operation as that of a recovery. -/
def asUnit : Option (Except SessionError Report) → Except SessionError Unit
  | some (.error e) => .error e
  | _ => .ok ()

/-- The token's transaction is finished through a session. -/
def finishFrom (w : World) (number : Nat) (r : Recovery) : World × Except SessionError Unit :=
  match w.call number (.resumeFrom r.token) with
  | (w, some (.error e)) => (w, .error e)
  | (w, _) =>
    let (w, result) := w.call number (.finish r.outcome)
    (w, asUnit result)

/-- One try; the session is closed whatever comes of it. -/
def recoverOnce (r : Recovery) (s : Recovering) : Recovering × Except SessionError Unit :=
  let (w, link) := s.world.addLink r.latency s.faults
  match Session.build r.config true with
  | .error e => (⟨w, s.tries + 1, s.faults⟩, .error e)
  | .ok session =>
    let (w, number) := w.addParty session link
    let (w, result) := w.finishFrom number r
    let w := w.close number r.config.closeTimeout
    (⟨w, s.tries + 1, ((w.links.get? link).map (·.faults)).getD []⟩, result)

/-- Try to finish the transaction, with waits in between. Answers the tries
and the last result. -/
def recover (w : World) (r : Recovery) (faults : List Fault) :
    World × Nat × Except SessionError Unit :=
  let (s, result) := retryJittered r.policy r.share (recoverOnce r)
    (fun span s => { s with world := s.world.sleep span }) ⟨w, 0, faults⟩
  (s.world, s.tries, result)

end World
end FencedLog
