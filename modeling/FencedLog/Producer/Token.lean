/-
# Resume tokens

A token names the transactional id and the identity under which a transaction
may be finished by someone else.

Key definition: `ResumeToken`.
-/
import FencedLog.Producer.Identity

namespace FencedLog

structure ResumeToken where
  txid : String
  producer : Int
  epoch : Int
deriving DecidableEq

namespace ResumeToken

def ofIdentity (txid : String) (id : Identity) : ResumeToken := ⟨txid, id.producer, id.epoch⟩

def identity (t : ResumeToken) : Identity := ⟨t.producer, t.epoch⟩

end ResumeToken
end FencedLog
