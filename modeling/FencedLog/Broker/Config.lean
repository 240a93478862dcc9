/-
# Limits of a broker

Key definition: `BrokerConfig`.
-/
import FencedLog.Span

namespace FencedLog

/-- The limits a broker works under. -/
structure BrokerConfig where
  /-- Longer transaction timeouts are cut to this one. -/
  maxTransactionTimeout : Span
  /-- Records with more bytes in key and value are refused. -/
  maxRecordBytes : Nat
  /-- The partition count of topics that are made on first use. -/
  defaultPartitions : Nat
  /-- Whether topics are made on first use. -/
  autoCreateTopics : Bool
deriving DecidableEq

/-- A quarter of an hour, a mebibyte, one partition, and no topics on demand. -/
def BrokerConfig.default : BrokerConfig := ⟨.ofSecs 900, 1048576, 1, false⟩

end FencedLog
