/-
# Partitions

A topic is split into numbered partitions. A set of partitions is kept in
order: by topic, then by number. The order of topics by their UTF-8 bytes is
their order by code points, so it is the order of strings.

Key definitions: `TopicPartition`, `TopicPartition.before`,
`TopicPartition.insert`, `PartitionInfo`.
Key theorem: `TopicPartition.mem_insert`.
-/

namespace FencedLog

/-- One partition of a topic. -/
structure TopicPartition where
  topic : String
  partition : Int
deriving DecidableEq, Inhabited

/-- A partition as the broker lists it. -/
structure PartitionInfo where
  topic : String
  partition : Int
  /-- The broker that leads the partition, if it is known. -/
  leader : Option Int
deriving DecidableEq, Inhabited

namespace TopicPartition

def text (p : TopicPartition) : String := p.topic ++ "-" ++ toString p.partition

/-- The order of partitions. -/
def before (p q : TopicPartition) : Bool :=
  decide (p.topic < q.topic) || (p.topic == q.topic && decide (p.partition < q.partition))

/-- An ordered set with one more member. -/
def insert (p : TopicPartition) : List TopicPartition → List TopicPartition
  | [] => [p]
  | q :: qs => if p = q then q :: qs else if before p q then p :: q :: qs else q :: insert p qs

/-- An ordered set with some more members. -/
def insertAll (ps qs : List TopicPartition) : List TopicPartition :=
  ps.foldl (fun qs p => insert p qs) qs

/-- The members of a list as an ordered set. -/
def sorted (ps : List TopicPartition) : List TopicPartition := insertAll ps []

theorem mem_insert {p q : TopicPartition} : ∀ {qs}, q ∈ insert p qs ↔ q = p ∨ q ∈ qs
  | [] => by simp [insert]
  | r :: qs => by
    by_cases h : p = r
    · subst h
      simp [insert]
    · by_cases hb : before p r
      · simp [insert, h, hb]
      · rw [insert, if_neg h, if_neg hb, List.mem_cons, List.mem_cons, mem_insert]
        exact or_left_comm

theorem mem_insertAll {q : TopicPartition} : ∀ {ps qs}, q ∈ insertAll ps qs ↔ q ∈ ps ∨ q ∈ qs
  | [], qs => by simp [insertAll]
  | p :: ps, qs => by
    show q ∈ insertAll ps (insert p qs) ↔ _
    rw [mem_insertAll, mem_insert, List.mem_cons, or_left_comm, or_assoc]

end TopicPartition
end FencedLog
