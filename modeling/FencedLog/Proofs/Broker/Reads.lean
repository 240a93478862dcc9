/-
# Committed reads never retract

Whatever is asked of a broker, a topic that is not deleted keeps what its
readers of committed records have seen: on each of its partitions they read the
same records again, and new ones only after them (`retains_run`).

Key definitions: `Broker.seen`, `Broker.Retains`.
Key theorems: `Broker.seen_eq`, `Broker.persists_run`, `Broker.retains_run`.
-/
import FencedLog.Proofs.Broker.Attribution
import FencedLog.Proofs.Log.Stable

namespace FencedLog
namespace Broker

/-- The records of one partition that a read of its topic answers with. -/
def seen (b : Broker) (p : TopicPartition) (isolation : Isolation) : List (Nat × Record) :=
  match b.read p.topic isolation with
  | .ok sightings =>
    (sightings.filter fun s => (s.partition : Int) = p.partition).map fun s => (s.offset, s.record)
  | .error _ => []

/-- In a read of a topic the partitions stand one after the other. -/
theorem sightings_filter (isolation : Isolation) (i : Nat) : ∀ (logs : List Log) (k : Nat),
    (((logs.zipIdx k).flatMap fun (log, partition) => (log.read isolation).map
      fun (offset, record) => (⟨partition, offset, record⟩ : Sighting)).filter
        fun s => s.partition = i).map (fun s => (s.offset, s.record)) =
      if k ≤ i then (logs[i - k]?.elim [] fun log => log.read isolation) else []
  | [], k => by simp
  | log :: logs, k => by
    have ih := sightings_filter isolation i logs (k + 1)
    rw [List.zipIdx_cons, List.flatMap_cons, List.filter_append, List.map_append, ih]
    rcases Nat.lt_trichotomy k i with hlt | rfl | hlt
    · have hsub : i - k = (i - (k + 1)) + 1 := by omega
      have hne : k ≠ i := Nat.ne_of_lt hlt
      rw [if_pos (by omega : k + 1 ≤ i), if_pos (Nat.le_of_lt hlt), hsub, List.getElem?_cons_succ]
      simp [List.filter_map, Function.comp_def, hne]
    · rw [if_neg (by omega : ¬ k + 1 ≤ k), if_pos (Nat.le_refl k), Nat.sub_self]
      simp [List.filter_map, Function.comp_def]
    · have hne : k ≠ i := Nat.ne_of_gt hlt
      rw [if_neg (by omega : ¬ k + 1 ≤ i), if_neg (by omega : ¬ k ≤ i)]
      simp [List.filter_map, Function.comp_def, hne]

/-- A read of a topic shows of a partition what its log shows. -/
theorem seen_eq {b : Broker} {p : TopicPartition} {log : Log} (h : b.log? p = some log)
    (isolation : Isolation) : b.seen p isolation = log.read isolation := by
  unfold log? at h
  split at h
  · cases h
  · rename_i hp
    obtain ⟨logs, hlogs, hlog⟩ := Option.bind_eq_some_iff.mp h
    have hi : ∀ s : Sighting, ((s.partition : Int) = p.partition) = (s.partition = p.partition.toNat) := by
      intro s
      rw [eq_iff_iff]
      omega
    have hsightings := sightings_filter isolation p.partition.toNat logs 0
    rw [if_pos (Nat.zero_le _), Nat.sub_zero, hlog] at hsightings
    simp only [seen, read, hlogs, hi]
    exact hsightings

/-- A log persists through every operation that does not delete its topic. -/
theorem persists_run {p : TopicPartition} : ∀ (ops : List Op) {b : Broker} {log : Log},
    b.log? p = some log → log.Dense → (∀ op ∈ ops, op ≠ .deleteTopic p.topic) →
      ∃ log', (b.run ops).log? p = some log' ∧ log.Persists log'
  | [], _, log, hl, hdense, _ => by
    have h := Log.persists_extend hdense []
    rw [Log.extend_nil] at h
    exact ⟨log, hl, h⟩
  | op :: ops, b, log, hl, hdense, hd => by
    have hstep := Log.persists_extend hdense ((b.posts op p).map (·.1))
    obtain ⟨log', hl', hrest⟩ := persists_run ops (act_log hl (hd op List.mem_cons_self))
      (Log.dense_extend hdense _) fun op' hop' => hd op' (List.mem_cons_of_mem _ hop')
    exact ⟨log', hl', hstep.trans hrest⟩

/-- Whatever follows, a partition keeps its past until its topic is deleted. -/
structure Retains (b : Broker) : Prop where
  /-- One operation. -/
  act : ∀ p log op, b.log? p = some log → op ≠ .deleteTopic p.topic →
    ∃ log', (b.act op).log? p = some log' ∧ log.Persists log'
  /-- Any number of operations. -/
  run : ∀ p log ops, b.log? p = some log → (∀ op ∈ ops, op ≠ .deleteTopic p.topic) →
    ∃ log', (b.run ops).log? p = some log' ∧ log.Persists log'
  /-- A topic is read as its partitions are. -/
  seen : ∀ p log ops, b.log? p = some log → (∀ op ∈ ops, op ≠ .deleteTopic p.topic) →
    b.seen p .readCommitted <+: (b.run ops).seen p .readCommitted

/-- **Committed reads never retract**, in any state that a broker reaches. -/
theorem retains_run (config : BrokerConfig) (ops : List Op) :
    ((start config).run ops).Retains := by
  have hdense : ∀ p log, ((start config).run ops).log? p = some log → log.Dense := by
    have h := (Chronicle.accounted_run ops (Chronicle.accounted_start config)).dense
    rw [Chronicle.run_broker] at h
    exact h
  refine ⟨fun p log op hl hd => ?_, fun p log more hl hd => ?_, fun p log more hl hd => ?_⟩
  · exact ⟨_, act_log hl hd, Log.persists_extend (hdense p log hl) _⟩
  · exact persists_run more hl (hdense p log hl) hd
  · obtain ⟨log', hl', h⟩ := persists_run more hl (hdense p log hl) hd
    rw [seen_eq hl, seen_eq hl']
    exact h.read

end Broker
end FencedLog
