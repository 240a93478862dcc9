/-
# Records

A draft is a record before it is sent: it may leave its key, its partition and
its time open. A record is what a partition stores. A placement says where an
acknowledged record landed.

Key definitions: `Draft`, `Record`, `Record.size`, `Placement`.
-/
import FencedLog.Record.Partition

namespace FencedLog

/-- The bytes of a key or value. -/
abbrev Bytes := ByteArray

instance : DecidableEq Bytes := ByteArray.instDecidableEq

/-- A record as a partition stores it; times are in milliseconds. -/
structure Record where
  key : Option Bytes
  value : Bytes
  time : Int
deriving DecidableEq

/-- The bytes that count against the broker's limit: the key's and the value's. -/
def Record.size (r : Record) : Nat := (r.key.map ByteArray.size).getD 0 + r.value.size

/-- A record that has not been sent. -/
structure Draft where
  topic : String
  partition : Option Int
  key : Option Bytes
  value : Bytes
  time : Option Int
deriving DecidableEq

namespace Draft

/-- A draft of key and value alone; the writers turn typed data into bytes. -/
def written {κ ν : Type} (topic : String) (key : Option κ) (value : ν)
    (writeKey : κ → Bytes) (writeValue : ν → Bytes) : Draft :=
  ⟨topic, none, key.map writeKey, writeValue value, none⟩

/-- The draft's record; a draft without a time takes the present. -/
def record (d : Draft) (present : Int) : Record := ⟨d.key, d.value, d.time.getD present⟩

end Draft

/-- Where an acknowledged record landed. -/
structure Placement where
  topic : String
  partition : Int
  offset : Nat
  time : Int
deriving DecidableEq

end FencedLog
