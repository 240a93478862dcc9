/-
# Identities

The broker gives a transactional id an identity: a producer number and an
epoch. A newer epoch of the same number fences the older ones.

Key definitions: `Identity`, `Identity.bump`, `Identity.text`, `Outcome`,
`Isolation`.
-/

namespace FencedLog

/-- A producer number and an epoch of it. -/
structure Identity where
  producer : Int
  epoch : Int
deriving DecidableEq, Inhabited

/-- The last epoch of a producer number: epochs are 16-bit words with a sign. -/
def lastEpoch : Int := 32767

namespace Identity

/-- The same producer one epoch later; past the last epoch the word wraps. -/
def bump (id : Identity) : Identity := { id with epoch := Int.bmod (id.epoch + 1) 65536 }

/-- The identity `n` epochs later. -/
def bumpTimes : Nat → Identity → Identity
  | 0, id => id
  | n + 1, id => bumpTimes n id.bump

def text (id : Identity) : String := toString id.producer ++ "@" ++ toString id.epoch

end Identity

/-- How a transaction ends. -/
inductive Outcome where
  | commit
  | abort
deriving DecidableEq, Inhabited

namespace Outcome

def text : Outcome → String
  | commit => "commit"
  | abort => "abort"

def names : List (String × Outcome) := [("commit", commit), ("abort", abort)]

end Outcome

/-- Which transactional records a reader sees. -/
inductive Isolation where
  /-- Only records of committed transactions, and records outside of any. -/
  | readCommitted
  /-- Every record, whatever becomes of its transaction. -/
  | readUncommitted
deriving DecidableEq, Inhabited

namespace Isolation

def text : Isolation → String
  | readCommitted => "read_committed"
  | readUncommitted => "read_uncommitted"

def names : List (String × Isolation) :=
  [("read_committed", readCommitted), ("read_uncommitted", readUncommitted)]

end Isolation
end FencedLog
