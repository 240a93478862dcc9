/-
# The lifecycle of a session

Key definitions: `Lifecycle`, `Lifecycle.hasIdentity`.
-/

namespace FencedLog

/-- Where a session stands. -/
inductive Lifecycle where
  | uninitialized
  | ready
  | inTransaction
  | committing
  | aborting
  | closed
deriving DecidableEq, Inhabited

namespace Lifecycle

def text : Lifecycle → String
  | uninitialized => "uninitialized"
  | ready => "ready"
  | inTransaction => "in_transaction"
  | committing => "committing"
  | aborting => "aborting"
  | closed => "closed"

def names : List (String × Lifecycle) :=
  [uninitialized, ready, inTransaction, committing, aborting, closed].map fun s => (s.text, s)

/-- Whether the session acts under an identity. -/
def hasIdentity : Lifecycle → Bool
  | uninitialized | closed => false
  | _ => true

end Lifecycle
end FencedLog
