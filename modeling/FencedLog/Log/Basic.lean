/-
# Partition logs

A log only grows. Data entries written in a transaction carry the producer's
number; when the transaction ends, a marker for that number decides them.
Markers take an offset of their own.

A reader of committed records stops at the last stable offset, that of the
first transactional entry which is not decided, and skips aborted entries.

Key definitions: `Entry`, `Log`, `Log.append`, `Log.mark`, `Log.fates`,
`Log.stableOffset`, `Log.read`.
-/
import FencedLog.Producer.Identity
import FencedLog.Record.Basic
import FencedLog.Table

namespace FencedLog

/-- An entry of a log. -/
inductive Entry where
  /-- A record; `producer` is set when it was written in a transaction. -/
  | data (offset : Nat) (producer : Option Int) (record : Record)
  /-- The end of a producer's transaction on this partition. -/
  | marker (offset : Nat) (producer : Int) (outcome : Outcome)
deriving DecidableEq

namespace Entry

def offset : Entry → Nat
  | data o _ _ => o
  | marker o _ _ => o

/-- The entry's offset and record, if it is a data entry. -/
def visible? : Entry → Option (Nat × Record)
  | data o _ r => some (o, r)
  | marker .. => none

end Entry

/-- A partition's entries, and the offset of the next one. -/
structure Log where
  entries : List Entry
  next : Nat
deriving DecidableEq

namespace Log

def empty : Log := ⟨[], 0⟩

instance : Inhabited Log := ⟨empty⟩

/-- The records as entries at consecutive offsets. -/
def entriesFrom (offset : Nat) (producer : Option Int) : List Record → List Entry
  | [] => []
  | r :: rs => .data offset producer r :: entriesFrom (offset + 1) producer rs

/-- Append records; the first one takes the offset `log.next`. -/
def append (log : Log) (producer : Option Int) (records : List Record) : Log :=
  ⟨log.entries ++ entriesFrom log.next producer records, log.next + records.length⟩

/-- Append a marker, at the offset `log.next`. -/
def mark (log : Log) (producer : Int) (outcome : Outcome) : Log :=
  ⟨log.entries ++ [.marker log.next producer outcome], log.next + 1⟩

/-- The offset the next entry takes. -/
def highWatermark (log : Log) : Nat := log.next

/-- For each entry the outcome that decides it, and the first marker of each
producer in `entries`. Only data entries of a transaction are ever decided. -/
def scan : List Entry → List (Option Outcome) × Table Int Outcome
  | [] => ([], .empty)
  | .marker _ producer outcome :: rest =>
    let (fates, first) := scan rest
    (none :: fates, first.put producer outcome)
  | .data _ (some producer) _ :: rest =>
    let (fates, first) := scan rest
    (first.get? producer :: fates, first)
  | .data _ none _ :: rest =>
    let (fates, first) := scan rest
    (none :: fates, first)

/-- For each entry the outcome of its transaction, if there is one yet. -/
def fates (log : Log) : List (Option Outcome) := (scan log.entries).1

/-- The first undecided transactional entry's offset, if there is one. -/
def firstOpen : List (Entry × Option Outcome) → Option Nat
  | [] => none
  | (.data offset (some _) _, none) :: _ => some offset
  | _ :: rest => firstOpen rest

/-- The offset up to which every transaction is decided. -/
def stableOffset (log : Log) : Nat := (firstOpen (log.entries.zip log.fates)).getD log.next

/-- Whether a reader of committed records sees an entry with this fate. -/
def committed : Entry × Option Outcome → Bool
  | (.data _ none _, _) => true
  | (.data .., fate) => fate == some .commit
  | (.marker .., _) => false

/-- The visible records with their offsets, in order. -/
def read (log : Log) : Isolation → List (Nat × Record)
  | .readUncommitted => log.entries.filterMap Entry.visible?
  | .readCommitted =>
    let stable := log.stableOffset
    (((log.entries.zip log.fates).takeWhile (·.1.offset < stable)).filter committed).filterMap
      (·.1.visible?)

end Log
end FencedLog
