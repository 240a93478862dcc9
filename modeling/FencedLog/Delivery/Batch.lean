/-
# Batches

Items are gathered into batches of one partition each and of bounded size.
Items of a partition keep their order; batches stand in the order in which
their first items came.

Key definitions: `Batch`, `Batches`, `Batches.push`, `Batches.partitions`.
Key theorem: `Batches.size_push`.
-/
import FencedLog.Record.Partition

namespace FencedLog

structure Batch (α : Type) where
  partition : TopicPartition
  items : List α
deriving DecidableEq

/-- Batches of at most `limit` items. -/
structure Batches (α : Type) where
  limit : Nat
  batches : List (Batch α)

namespace Batches

variable {α : Type}

/-- No batches yet; a batch always holds at least one item. -/
def empty (limit : Nat) : Batches α := ⟨max limit 1, []⟩

/-- The item joins the batch of its partition that still has room, or begins a
new one. All batches of the partition but the last one are full. -/
def place (limit : Nat) (p : TopicPartition) (item : α) : List (Batch α) → List (Batch α)
  | [] => [⟨p, [item]⟩]
  | b :: bs =>
    if b.partition = p ∧ b.items.length < limit then { b with items := b.items ++ [item] } :: bs
    else b :: place limit p item bs

def push (s : Batches α) (p : TopicPartition) (item : α) : Batches α :=
  { s with batches := place s.limit p item s.batches }

/-- Items with their partitions, pushed in order. -/
def pushAll (s : Batches α) : List (TopicPartition × α) → Batches α
  | [] => s
  | (p, item) :: rest => (s.push p item).pushAll rest

def isEmpty (s : Batches α) : Bool := s.batches.isEmpty

/-- The number of items in a list of batches. -/
def count : List (Batch α) → Nat
  | [] => 0
  | b :: bs => b.items.length + count bs

def size (s : Batches α) : Nat := count s.batches

/-- The members of `ps` that are not in `seen`, each once, in order. -/
def distinct (seen : List TopicPartition) : List TopicPartition → List TopicPartition
  | [] => []
  | p :: ps => if seen.contains p then distinct seen ps else p :: distinct (p :: seen) ps

/-- The partitions, each once, in the order in which they first came. -/
def partitions (s : Batches α) : List TopicPartition := distinct [] (s.batches.map (·.partition))

/-- All batches, and none of them left. -/
def drain (s : Batches α) : List (Batch α) × Batches α := (s.batches, { s with batches := [] })

theorem count_place (limit : Nat) (p : TopicPartition) (item : α) : ∀ bs : List (Batch α),
    count (place limit p item bs) = count bs + 1
  | [] => rfl
  | b :: bs => by
    by_cases h : b.partition = p ∧ b.items.length < limit
    · simp only [place, if_pos h, count, List.length_append, List.length_singleton]
      omega
    · simp only [place, if_neg h, count, count_place limit p item bs]
      omega

/-- A push adds one item. -/
theorem size_push (s : Batches α) (p : TopicPartition) (item : α) :
    (s.push p item).size = s.size + 1 :=
  count_place s.limit p item s.batches

end Batches
end FencedLog
