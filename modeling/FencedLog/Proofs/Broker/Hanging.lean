/-
# No record is left hanging

An undecided record holds back every reader of committed records. It must never
lose the transaction that is going to decide it: whatever is asked of a broker,
and whichever topics come and go, the record's producer belongs to one
transactional id, whose transaction is ongoing with the record's partition
enrolled (`Attended`). The operation that ends this transaction is then the one
that posts the marker.

So a log without an ongoing transaction anywhere is stable up to its end.

Key definitions: `Coordinator.Attends`, `Broker.Attended`.
Key theorems: `Log.stableOffset_of_decided`, `Chronicle.Accounted.attends`,
`Broker.attended_run`.
-/
import FencedLog.Proofs.Broker.Attribution

namespace FencedLog

/-! ### The stable offset -/

namespace Log

/-- The first open offset is that of an undecided transactional record. -/
theorem exists_of_firstOpen {offset : Nat} {rows : List (Entry × Option Outcome)}
    (h : firstOpen rows = some offset) : ∃ (i : Nat) (producer : Int) (r : Record),
      rows[i]? = some (.data offset (some producer) r, none) := by
  fun_induction firstOpen rows with
  | case1 => cases h
  | case2 o producer r rest =>
    obtain rfl : o = offset := Option.some.inj h
    exact ⟨0, producer, r, rfl⟩
  | case3 row rest _ ih =>
    obtain ⟨i, hi⟩ := ih h
    exact ⟨i + 1, hi⟩

/-- Where every transactional record is decided, a log is stable up to its end. -/
theorem stableOffset_of_decided {log : Log}
    (h : ∀ (i offset : Nat) (producer : Int) (r : Record),
      log.entries[i]? = some (.data offset (some producer) r) →
      log.fates[i]? ≠ some none) : log.stableOffset = log.highWatermark := by
  have hnone : firstOpen (log.entries.zip log.fates) = none := by
    cases ho : firstOpen (log.entries.zip log.fates) with
    | none => rfl
    | some offset =>
      obtain ⟨i, producer, r, hrow⟩ := exists_of_firstOpen ho
      obtain ⟨he, hf⟩ := List.getElem?_zip_eq_some.mp hrow
      exact absurd hf (h i offset producer r he)
  rw [stableOffset, hnone]
  rfl

end Log

/-! ### Who decides an undecided record -/

/-- The transactional id, and no other one, has the producer, and its ongoing
transaction has the partition enrolled. -/
structure Coordinator.Attends (c : Coordinator) (x : String) (producer : Int)
    (p : TopicPartition) : Prop where
  ongoing : ∃ t, c.describe x = some t ∧ t.identity.producer = producer ∧ t.stage = .ongoing ∧
    p ∈ t.partitions
  alone : ∀ y u, c.describe y = some u → u.identity.producer = producer → y = x

/-- Every undecided record has a transaction to decide it. -/
structure Broker.Attended (b : Broker) : Prop where
  attends : ∀ p log (i offset : Nat) (producer : Int) (r : Record), b.log? p = some log →
    log.entries[i]? = some (.data offset (some producer) r) → log.fates[i]? = some none →
      ∃ x, b.coordinator.Attends x producer p
  /-- Readers of committed records wait for ongoing transactions only. -/
  stable : (∀ x t, b.coordinator.describe x = some t → t.stage ≠ .ongoing) →
    ∀ p log, b.log? p = some log → log.stableOffset = log.highWatermark

namespace Chronicle

variable {c : Chronicle} {p : TopicPartition}

/-- The open transaction of an enrolled partition attends to it. -/
theorem Open.attends (hs : c.broker.coordinator.Sound) {T : Txn} (ho : c.Open T)
    (he : c.Enrolled T p) : c.broker.coordinator.Attends T.txid T.identity.producer p := by
  obtain ⟨t, hd, hp⟩ := he
  obtain ⟨hst, hid⟩ := (Coordinator.underWay_iff hd _).mp (open_iff.mp ho).1
  have hq : t.identity.producer = T.identity.producer := congrArg Identity.producer hid
  refine ⟨⟨t, hd, hq, hst, hp⟩, fun y u hu hqu => ?_⟩
  exact hs.apart y T.txid u t hu hd (hqu.trans hq.symm)

/-- A record that no marker has reached yet is one of an open transaction. -/
theorem Accounted.attends (h : c.Accounted) {log : Log} (hl : c.broker.log? p = some log)
    {i offset : Nat} {producer : Int} {r : Record}
    (he : log.entries[i]? = some (.data offset (some producer) r))
    (hf : log.fates[i]? = some none) : ∃ x, c.broker.coordinator.Attends x producer p := by
  obtain ⟨T, -, hq, hset, hfate⟩ := h.record hl he
  have hv : verdict producer ((c.rows p log).drop (i + 1)) = none := by
    rw [hf, Option.some.injEq] at hfate
    exact Option.map_eq_none_iff.mp hfate.symm
  rw [hv] at hset
  obtain ⟨ho, hen⟩ := hset
  exact ⟨T.txid, hq ▸ ho.attends h.coordinator hen⟩

theorem Accounted.attended (h : c.Accounted) : c.broker.Attended where
  attends := fun _ _ _ _ _ _ hl he hf => h.attends hl he hf
  stable := fun hidle p log hl => by
    refine Log.stableOffset_of_decided fun i offset producer r he hf => ?_
    obtain ⟨x, ⟨t, hd, -, hst, -⟩, -⟩ := h.attends hl he hf
    exact hidle x t hd hst

end Chronicle

/-- **In every run of the broker an undecided record has a transaction to decide
it**, and without ongoing transactions every log is stable up to its end. -/
theorem Broker.attended_run (config : BrokerConfig) (ops : List Broker.Op) :
    ((Broker.start config).run ops).Attended := by
  have h : ((Chronicle.start config).run ops).broker.Attended :=
    (Chronicle.accounted_run ops (Chronicle.accounted_start config)).attended
  rw [Chronicle.run_broker] at h
  exact h

end FencedLog
