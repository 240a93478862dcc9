/-
# What a session counts

Key definition: `Counters`.
-/

namespace FencedLog

structure Counters where
  sent : Nat
  acknowledged : Nat
  failed : Nat
  committed : Nat
  aborted : Nat
deriving DecidableEq, Inhabited

def Counters.zero : Counters := ⟨0, 0, 0, 0, 0⟩

end FencedLog
