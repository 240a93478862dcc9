/-
# Trying again

An operation is repeated while it fails with an error that may go away, as
often as the policy says. State is handed from try to try and from wait to
wait. With jitter the waits differ, and nothing else.

Key definitions: `retryFrom`, `retry`, `retryJittered`.
Key theorems: `retryFrom_of_ok`, `retryFrom_of_not_retriable`,
`retryFrom_succ_of_retriable`.
-/
import FencedLog.Retry.Policy
import FencedLog.Session.Error

namespace FencedLog

variable {σ α : Type}

/-- Try number `attempt` and the tries after it, of which at most `left` come.
`wait` is what happens after a try of a given number. -/
def retryFrom (operation : σ → σ × Except SessionError α) (wait : Nat → σ → σ) (attempt : Nat) :
    Nat → σ → σ × Except SessionError α
  | 0, s => operation s
  | left + 1, s =>
    match operation s with
    | (s, .ok a) => (s, .ok a)
    | (s, .error e) =>
      if e.isRetriable then retryFrom operation wait (attempt + 1) left (wait attempt s)
      else (s, .error e)

/-- The operation, tried as often as the policy says, with its waits. -/
def retry (p : RetryPolicy) (operation : σ → σ × Except SessionError α) (wait : Span → σ → σ)
    (s : σ) : σ × Except SessionError α :=
  retryFrom operation (fun attempt => wait (p.backoff attempt)) 0 p.maxRetries s

/-- The same with waits left to chance: `share` says how long each is. -/
def retryJittered (p : RetryPolicy) (share : Nat → Float)
    (operation : σ → σ × Except SessionError α) (wait : Span → σ → σ) (s : σ) :
    σ × Except SessionError α :=
  retryFrom operation (fun attempt => wait (p.jittered (share attempt) attempt)) 0 p.maxRetries s

variable {operation : σ → σ × Except SessionError α} {wait : Nat → σ → σ} {s t : σ}

/-- A success is the last try. -/
theorem retryFrom_of_ok {a : α} (h : operation s = (t, .ok a)) (attempt left : Nat) :
    retryFrom operation wait attempt left s = (t, .ok a) := by
  cases left <;> simp [retryFrom, h]

/-- So is an error that will not go away. -/
theorem retryFrom_of_not_retriable {e : SessionError} (h : operation s = (t, .error e))
    (he : e.isRetriable = false) (attempt left : Nat) :
    retryFrom operation wait attempt left s = (t, .error e) := by
  cases left <;> simp [retryFrom, h, he]

/-- After an error that may go away there is a wait, and another try. -/
theorem retryFrom_succ_of_retriable {e : SessionError} (h : operation s = (t, .error e))
    (he : e.isRetriable = true) (attempt left : Nat) :
    retryFrom operation wait attempt (left + 1) s =
      retryFrom operation wait (attempt + 1) left (wait attempt t) := by
  simp [retryFrom, h, he]

end FencedLog
