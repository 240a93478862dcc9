/-
# The topics of a broker

A marker goes to the end of one log and leaves the others alone, and so the
markers of a list of closings are items at the end of each log
(`log?_closeAll`). Topics made on demand come with empty logs (`Grown`).

Key definitions: `Broker.markersOf`, `Broker.SameButTopics`, `Broker.Grown`.
Key theorems: `Broker.log?_putLog`, `Broker.log?_closeAll`,
`Broker.grown_ensureAll`, `Broker.enroll_spec`.
-/
import FencedLog.Broker.Basic
import FencedLog.Proofs.Keys
import FencedLog.Proofs.Log.Items

namespace FencedLog
namespace Broker

/-! ### Logs -/

/-- Two partitions with logs are the same log only if they are equal. -/
theorem toNat_ne {p q : TopicPartition} (hp : ¬ p.partition < 0) (hq : ¬ q.partition < 0)
    (ht : p.topic = q.topic) (hne : p ≠ q) : p.partition.toNat ≠ q.partition.toNat := by
  intro he
  apply hne
  cases p
  cases q
  simp only [TopicPartition.mk.injEq] at *
  exact ⟨ht, by omega⟩

theorem log?_putLog {b : Broker} {p : TopicPartition} {old : Log} (h : b.log? p = some old)
    (log : Log) (q : TopicPartition) :
    (b.putLog p log).log? q = if p = q then some log else b.log? q := by
  unfold log? at h
  split at h
  · simp at h
  · rename_i hp
    obtain ⟨logs, hl, ho⟩ := Option.bind_eq_some_iff.mp h
    have hlt := (List.getElem?_eq_some_iff.mp ho).1
    unfold log? putLog
    rw [hl]
    simp only [Table.get?_put]
    by_cases hpq : p = q
    · subst hpq
      simp [hp, List.getElem?_set_self hlt]
    · rw [if_neg hpq]
      by_cases hq : q.partition < 0
      · simp [hq]
      · rw [if_neg hq, if_neg hq]
        by_cases ht : p.topic = q.topic
        · rw [if_pos ht, ← ht, hl]
          simp [List.getElem?_set_ne (toNat_ne hp hq ht hpq)]
        · rw [if_neg ht]

theorem log?_mark (b : Broker) (producer : Int) (o : Outcome) (p q : TopicPartition) :
    (b.mark producer o p).log? q =
      if p = q then (b.log? q).map (·.extend [.marker producer o]) else b.log? q := by
  unfold mark
  split
  · rename_i log h
    rw [log?_putLog h]
    split
    · rename_i hpq
      rw [← hpq, h]
      rfl
    · rfl
  · rename_i h
    split
    · rename_i hpq
      rw [← hpq, h]
      rfl
    · rfl

/-- The markers that a closing puts on a partition. -/
def markersOf (closing : Closing) (p : TopicPartition) : List Log.Item :=
  (closing.partitions.filter (· = p)).map fun _ => .marker closing.producer closing.outcome

theorem log?_marks (producer : Int) (o : Outcome) (q : TopicPartition) :
    ∀ (ps : List TopicPartition) (b : Broker),
      (ps.foldl (fun b p => b.mark producer o p) b).log? q =
        (b.log? q).map (·.extend ((ps.filter (· = q)).map fun _ => .marker producer o))
  | [], b => by simp
  | p :: ps, b => by
    rw [List.foldl_cons, log?_marks producer o q ps, log?_mark]
    by_cases hpq : p = q
    · simp only [List.filter_cons, hpq, decide_true, ↓reduceIte, List.map_cons,
        Option.map_map]
      cases b.log? q with
      | none => rfl
      | some log =>
        simp only [Option.map_some, Function.comp_apply]
        rw [← Log.extend_append, List.singleton_append]
    · simp only [List.filter_cons, hpq, decide_false, Bool.false_eq_true, ↓reduceIte]

theorem log?_close (b : Broker) (closing : Closing) (q : TopicPartition) :
    (b.close closing).log? q = (b.log? q).map (·.extend (markersOf closing q)) :=
  log?_marks closing.producer closing.outcome q closing.partitions b

theorem log?_closeAll (q : TopicPartition) : ∀ (closings : List Closing) (b : Broker),
    (closings.foldl close b).log? q =
      (b.log? q).map (·.extend (closings.flatMap fun closing => markersOf closing q))
  | [], b => by simp
  | closing :: closings, b => by
    rw [List.foldl_cons, log?_closeAll q closings, log?_close]
    cases b.log? q with
    | none => rfl
    | some log => simp [Log.extend_append]

/-! ### All but the logs -/

/-- The brokers agree in everything but their topics. -/
structure SameButTopics (b b' : Broker) : Prop where
  config : b'.config = b.config
  coordinator : b'.coordinator = b.coordinator
  available : b'.available = b.available
  generation : b'.generation = b.generation

theorem SameButTopics.refl (b : Broker) : SameButTopics b b := ⟨rfl, rfl, rfl, rfl⟩

theorem SameButTopics.trans {a b c : Broker} (h : SameButTopics a b) (h' : SameButTopics b c) :
    SameButTopics a c :=
  ⟨h'.config.trans h.config, h'.coordinator.trans h.coordinator,
    h'.available.trans h.available, h'.generation.trans h.generation⟩

theorem same_putLog (b : Broker) (p : TopicPartition) (log : Log) :
    SameButTopics b (b.putLog p log) := by
  unfold putLog
  split <;> exact ⟨rfl, rfl, rfl, rfl⟩

theorem same_mark (b : Broker) (producer : Int) (o : Outcome) (p : TopicPartition) :
    SameButTopics b (b.mark producer o p) := by
  unfold mark
  split
  · exact same_putLog b p _
  · exact .refl b

theorem same_marks (producer : Int) (o : Outcome) : ∀ (ps : List TopicPartition) (b : Broker),
    SameButTopics b (ps.foldl (fun b p => b.mark producer o p) b)
  | [], b => .refl b
  | p :: ps, b => (same_mark b producer o p).trans (same_marks producer o ps _)

theorem same_close (b : Broker) (closing : Closing) : SameButTopics b (b.close closing) :=
  same_marks closing.producer closing.outcome closing.partitions b

theorem same_closeAll : ∀ (closings : List Closing) (b : Broker),
    SameButTopics b (closings.foldl close b)
  | [], b => .refl b
  | closing :: closings, b => (same_close b closing).trans (same_closeAll closings _)

/-! ### Topics on demand -/

/-- Topics were added on demand, with empty logs, and nothing else happened. -/
structure Grown (b b' : Broker) : Prop extends SameButTopics b b' where
  kept : ∀ p log, b.log? p = some log → b'.log? p = some log
  fresh : ∀ p log, b.log? p = none → b'.log? p = some log →
    b.config.autoCreateTopics = true ∧ log = Log.empty

theorem Grown.refl (b : Broker) : Grown b b where
  toSameButTopics := .refl b
  kept := fun _ _ h => h
  fresh := fun _ _ h h' => by rw [h] at h'; cases h'

theorem Grown.trans {a b c : Broker} (h : Grown a b) (h' : Grown b c) : Grown a c where
  toSameButTopics := h.toSameButTopics.trans h'.toSameButTopics
  kept := fun p log hp => h'.kept p log (h.kept p log hp)
  fresh := fun p log hn hp => by
    cases hb : b.log? p with
    | none => exact h.config ▸ h'.fresh p log hb hp
    | some old =>
      obtain ⟨hc, he⟩ := h.fresh p old hn hb
      rw [h'.kept p old hb] at hp
      exact ⟨hc, (Option.some.inj hp) ▸ he⟩

/-- The logs of a topic that did not exist are empty. -/
theorem log?_newTopic {b : Broker} {topic : String} (h : b.topics.contains topic = false)
    (count : Nat) (p : TopicPartition) :
    (∀ log, b.log? p = some log →
      ({ b with topics := b.topics.put topic (List.replicate count Log.empty) }).log? p = some log) ∧
    (∀ log, b.log? p = none →
      ({ b with topics := b.topics.put topic (List.replicate count Log.empty) }).log? p = some log →
        log = Log.empty) := by
  have hnone : b.topics.get? topic = none := by simpa [Table.contains] using h
  unfold log?
  by_cases hp : p.partition < 0
  · simp [hp]
  · rw [if_neg hp, if_neg hp]
    simp only [Table.get?_put]
    by_cases ht : topic = p.topic
    · rw [if_pos ht, ← ht, hnone]
      refine ⟨fun log hl => by simp at hl, fun log _ hl => ?_⟩
      simp only [Option.bind_some] at hl
      exact List.eq_of_mem_replicate (List.mem_of_getElem? hl)
    · rw [if_neg ht]
      exact ⟨fun _ hl => hl, fun log hn hl => by rw [hn] at hl; cases hl⟩

theorem grown_ensureTopic (b : Broker) (topic : String) : Grown b (b.ensureTopic topic) := by
  unfold ensureTopic
  split
  · rename_i hc
    simp only [Bool.and_eq_true, Bool.not_eq_true'] at hc
    have hl := log?_newTopic hc.2 (max b.config.defaultPartitions 1)
    exact ⟨⟨rfl, rfl, rfl, rfl⟩, fun p => (hl p).1, fun p log hn hp => ⟨hc.1, (hl p).2 log hn hp⟩⟩
  · exact .refl b

theorem grown_ensureAll : ∀ (ps : List TopicPartition) (b : Broker), Grown b (b.ensureAll ps).1
  | [], b => .refl b
  | p :: ps, b => by
    have h := grown_ensureTopic b p.topic
    unfold ensureAll
    simp only
    split
    · exact h.trans (grown_ensureAll ps _)
    · exact h

/-- The coordinator is asked to enroll partitions that all exist by then. -/
theorem enroll_spec (b : Broker) (now : Span) (x : String) (id : Identity)
    (ps : List TopicPartition) :
    (∃ e, (b.ensureAll ps).2 = .error e ∧
      b.enroll now x id ps = ((b.ensureAll ps).1, .error e)) ∨
    ((b.ensureAll ps).2 = .ok () ∧ b.enroll now x id ps =
      ({ (b.ensureAll ps).1 with coordinator := (b.coordinator.enroll now x id ps).1 },
        (b.coordinator.enroll now x id ps).2.map fun _ => .enrolled)) := by
  have hc := (grown_ensureAll ps b).coordinator
  unfold enroll
  cases hb : b.ensureAll ps with
  | mk b' made =>
    rw [hb] at hc
    replace hc : b'.coordinator = b.coordinator := hc
    cases made with
    | error e => exact Or.inl ⟨e, rfl, rfl⟩
    | ok _ => exact Or.inr ⟨rfl, by simp only [hc]⟩

end Broker
end FencedLog
