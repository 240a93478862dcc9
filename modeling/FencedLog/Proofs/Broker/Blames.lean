/-
# What a refusal says

A refusal is about the identity and its transaction, or about the connection,
or it blames the request: one of its records is too large, or a partition that
it names has no log (`Broker.blames_refused`). A listing tells which partitions
of a topic have logs.

Key definitions: `Request.Names`, `Request.records`, `Broker.Blames`.
Key theorems: `Broker.blames_refused`, `Broker.log?_of_listed`,
`Broker.log?_of_unlisted`.
-/
import FencedLog.Proofs.Broker.Single

namespace FencedLog

namespace Coordinator

variable {c : Coordinator} {x : String} {id : Identity} {e : BrokerError}

theorem isFencing_of_validate {t : Transaction} (h : t.validate id = .error e) :
    e.isFencing = true := by
  unfold Transaction.validate at h
  split at h
  · rw [← Except.error.inj h]
    rfl
  · split at h
    · rw [← Except.error.inj h]
      rfl
    · split at h
      · rw [← Except.error.inj h]
        rfl
      · cases h

/-- Whoever is not authorized is fenced. -/
theorem isFencing_of_authorize (h : c.authorize x id = .error e) : e.isFencing = true := by
  unfold authorize at h
  split at h
  · rw [← Except.error.inj h]
    rfl
  · rename_i t _
    cases hv : t.validate id with
    | ok u =>
      rw [hv] at h
      cases h
    | error e' =>
      rw [hv] at h
      rw [← Except.error.inj h]
      exact isFencing_of_validate hv

/-- The refusal is about the identity or its transaction, not about the data. -/
def Disallows (e : BrokerError) : Prop := e.isFencing = true ∨ ∃ reason, e = .invalidState reason

theorem disallows_enroll {now : Span} {ps : List TopicPartition}
    (h : (c.enroll now x id ps).2 = .error e) : Disallows e := by
  rcases enroll_spec c now x id ps with ⟨-, -, -, hok, -⟩ | ⟨e', ha, he, -⟩
  · rw [hok] at h
    cases h
  · rw [he] at h
    rw [← Except.error.inj h]
    exact Or.inl (isFencing_of_authorize ha)

theorem disallows_permit {p : TopicPartition} (h : (c.permit x id p).2 = .error e) :
    Disallows e := by
  unfold permit at h
  split at h
  · rename_i e' ha
    rw [refuse_answer] at h
    rw [← Except.error.inj h]
    exact Or.inl (isFencing_of_authorize ha)
  · split at h
    · exact Or.inr ⟨_, (Except.error.inj h).symm⟩
    · split at h
      · cases h
      · exact Or.inr ⟨_, (Except.error.inj h).symm⟩

theorem disallows_finish {o : Outcome} (h : (c.finish x id o).2 = .error e) : Disallows e := by
  unfold finish at h
  split at h
  · rw [← Except.error.inj h]
    exact Or.inl rfl
  · split at h
    · unfold finishStale at h
      split at h
      · cases h
      · split at h
        · cases h
        · rw [refuse_answer] at h
          rw [← Except.error.inj h]
          exact Or.inl rfl
    · split at h
      · rename_i e' hv
        rw [refuse_answer] at h
        rw [← Except.error.inj h]
        exact Or.inl (isFencing_of_validate hv)
      · split at h
        · cases h
        · cases h
        · split at h
          · cases h
          · exact Or.inr ⟨_, (Except.error.inj h).symm⟩

end Coordinator

/-- The request is about this partition. -/
def Request.Names : Request → TopicPartition → Prop
  | .enroll _ _ ps, p => p ∈ ps
  | .append _ _ q _, p => q = p
  | .listing topic, p => topic = p.topic
  | .init .., _ | .finish .., _ => False

/-- The records that the request is to append. -/
def Request.records : Request → List Record
  | .append _ _ _ records => records
  | .init .. | .enroll .. | .finish .. | .listing _ => []

namespace Broker

variable {b : Broker} {now : Span} {q : Request} {e : BrokerError}

/-- What is wrong with the request if it is refused like this. -/
def Blames (b : Broker) (q : Request) : BrokerError → Prop
  | .recordTooLarge size max =>
    max = b.config.maxRecordBytes ∧ max < size ∧ ∃ r ∈ q.records, r.size = size
  | .unknownPartition topic n => q.Names ⟨topic, n⟩ ∧ b.log? ⟨topic, n⟩ = none
  | _ => True

theorem blames_of_disallows (h : Coordinator.Disallows e) : b.Blames q e := by
  rcases h with h | ⟨reason, rfl⟩
  · cases e with
    | recordTooLarge size max => cases h
    | unknownPartition topic n => cases h
    | _ => trivial
  · trivial

theorem unknown_of_ensureAll : ∀ {ps : List TopicPartition} {b : Broker},
    (b.ensureAll ps).2 = .error e → ∃ p ∈ ps, e = .unknownPartition p.topic p.partition ∧
      b.log? p = none
  | [], _, h => by cases h
  | p :: ps, b, h => by
    have hg := grown_ensureTopic b p.topic
    have hnone : ∀ {q}, (b.ensureTopic p.topic).log? q = none → b.log? q = none := fun {q} hq => by
      cases hl : b.log? q with
      | none => rfl
      | some log =>
        rw [hg.kept q log hl] at hq
        cases hq
    simp only [ensureAll] at h
    split at h
    · obtain ⟨q, hq, he, hl⟩ := unknown_of_ensureAll h
      exact ⟨q, List.mem_cons_of_mem _ hq, he, hnone hl⟩
    · rename_i hl
      exact ⟨p, List.mem_cons_self, (Except.error.inj h).symm, hnone hl⟩

/-- **A refusal says what is wrong with the request.** -/
theorem blames_refused (h : (b.handle now q).2 = .error e) : b.Blames q e := by
  unfold handle at h
  split at h
  · cases q with
    | init x timeout => cases h
    | enroll x id ps =>
      rcases enroll_spec b now x id ps with ⟨e', hb, he'⟩ | ⟨-, he'⟩ <;> simp only [he'] at h
      · rw [← Except.error.inj h]
        obtain ⟨p, hp, he, hl⟩ := unknown_of_ensureAll hb
        rw [he]
        exact ⟨hp, hl⟩
      · cases hr : (b.coordinator.enroll now x id ps).2 with
        | ok u => simp [hr, Except.map] at h
        | error e' =>
          simp only [hr, Except.map, Except.error.injEq] at h
          exact blames_of_disallows (Coordinator.disallows_enroll (h ▸ hr))
    | append x id p rs =>
      simp only [append] at h
      split at h
      · rename_i r hr
        rw [← Except.error.inj h]
        have hmem : r ∈ rs := List.mem_of_find?_eq_some hr
        exact ⟨rfl, by simpa using List.find?_some hr, r, hmem, rfl⟩
      · split at h
        · rename_i c e' hp
          rw [← Except.error.inj h]
          exact blames_of_disallows (Coordinator.disallows_permit (e := e') (by rw [hp]))
        · split at h
          · cases h
          · rename_i hl
            rw [← Except.error.inj h]
            exact ⟨rfl, (log?_eq_of_topics rfl _).symm.trans hl⟩
    | finish x id o =>
      simp only [finish] at h
      split at h
      · rename_i c e' hf
        rw [← Except.error.inj h]
        exact blames_of_disallows (Coordinator.disallows_finish (e := e') (by rw [hf]))
      · cases h
      · cases h
    | listing topic =>
      simp only [listing] at h
      split at h
      · cases h
      · rename_i hl
        rw [← Except.error.inj h]
        refine ⟨rfl, ?_⟩
        unfold log?
        simp
  · rw [← Except.error.inj h]
    trivial

/-! ### Listings -/

/-- A listing has as many entries as the topic has logs. -/
theorem log?_of_listed {topic : String} {infos : List PartitionInfo}
    (h : (b.handle now (.listing topic)).2 = .ok (.partitions infos)) {p : TopicPartition}
    (hp : p.topic = topic) : (∃ log, (b.handle now (.listing topic)).1.log? p = some log) ↔
      0 ≤ p.partition ∧ p.partition < infos.length := by
  have hb : (b.handle now (.listing topic)).1.breadth topic = infos.length := by
    unfold handle listing at h ⊢
    split at h
    · rename_i ha
      simp only [ha, ↓reduceIte] at h ⊢
      cases hl : (b.ensureTopic topic).topics.get? topic with
      | none => simp [hl] at h
      | some logs =>
        simp only [hl, Except.ok.injEq, Reply.partitions.injEq] at h ⊢
        rw [← h, numbered, List.length_map, List.length_range, breadth, hl]
        rfl
    · cases h
  rw [exists_log_iff, hp, hb]
  omega

/-- A topic that is not listed has no logs, and is not made. -/
theorem log?_of_unlisted {topic topic' : String} {n : Int}
    (h : (b.handle now (.listing topic)).2 = .error (.unknownPartition topic' n))
    {p : TopicPartition} (hp : p.topic = topic) :
    (b.handle now (.listing topic)).1.log? p = none := by
  unfold handle listing at h ⊢
  split at h
  · rename_i ha
    simp only [ha, ↓reduceIte] at h ⊢
    cases hl : (b.ensureTopic topic).topics.get? topic with
    | some logs => simp [hl] at h
    | none => simp [log?, hp, hl]
  · cases h

end Broker
end FencedLog
