/-
# Settings of a session

Key definitions: `SessionConfig`, `SessionConfig.default`,
`SessionConfig.validate`.
-/
import FencedLog.Session.Error
import FencedLog.Text.Blank

namespace FencedLog

structure SessionConfig where
  /-- The name that identities are given out under. -/
  txid : String
  servers : List String
  /-- How long the coordinator keeps a transaction open. -/
  transactionTimeout : Span
  /-- How long a single request may take. -/
  requestTimeout : Span
  /-- The most records of one append. -/
  maxBatch : Nat
  /-- How many messages may wait for the delivery worker. -/
  queueCapacity : Nat
  isolation : Isolation
  /-- How long a close waits, unless it is told otherwise. -/
  closeTimeout : Span
deriving DecidableEq

namespace SessionConfig

def default : SessionConfig :=
  ⟨"", [], .ofSecs 60, .ofSecs 30, 100, 1024, .readCommitted, .ofSecs 5⟩

/-- The first fault in the settings. -/
def fault? (c : SessionConfig) : Option String :=
  if (Text.trim c.txid).isEmpty then some "transactional_id must not be empty"
  else if c.transactionTimeout.isZero then some "transaction_timeout must be greater than zero"
  else if c.requestTimeout.isZero then some "request_timeout must be greater than zero"
  else if c.maxBatch = 0 then some "max_batch_size must be at least 1"
  else if c.queueCapacity = 0 then some "delivery_queue_capacity must be at least 1"
  else none

def validate (c : SessionConfig) : Except SessionError Unit :=
  match c.fault? with
  | some fault => .error (.config fault)
  | none => .ok ()

theorem validate_ok_iff {c : SessionConfig} : c.validate = .ok () ↔ c.fault? = none := by
  unfold validate
  cases c.fault? <;> simp

end SessionConfig
end FencedLog
