/-
# Why a record fails

As long as no terminal error is known, a worker fails a record for one of two
reasons. It was queued without a partition; or a request is refused that it is
part of, to enroll the partitions of its round or to append its batch
(`Delivery.Cause`). A request is refused as a whole, and all of its records fail
with it. So a record is too large only if its batch holds one that is
(`Delivery.Overfilled`), and its partition is unknown only if it is its own, or
one that its round is to enroll (`Delivery.Lacking`).

Key definitions: `Service`, `Delivery.Cause`, `Delivery.Overfilled`,
`Delivery.Lacking`.
Key theorems: `Service.blames`, `Delivery.caused_answered`,
`Delivery.failed_round`, `Delivery.overfilled_of_cause`,
`Delivery.lacking_of_cause`.
-/
import FencedLog.Proofs.Broker.Blames
import FencedLog.Proofs.Delivery.Halt

namespace FencedLog

/-! ### Services -/

/-- How a request is served: a broker handles it, or it fails on the way. -/
inductive Service where
  | handled (b : Broker) (now : Span)
  | failed (e : BrokerError) (h : e.isRetriable = true)

def Service.answer : Service → Request → Answer
  | handled b now, q => (b.handle now q).2
  | failed e _, _ => .error e

/-- A request that is not to be repeated as it is was refused by a broker. -/
theorem Service.blames {v : Service} {q : Request} {e : BrokerError} (h : v.answer q = .error e)
    (he : e.isRetriable = false) : ∃ b now, v = .handled b now ∧ b.Blames q e := by
  cases v with
  | handled b now => exact ⟨b, now, rfl, Broker.blames_refused h⟩
  | failed e' hr =>
    rw [Except.error.inj h, he] at hr
    cases hr

namespace Delivery

variable {d : Delivery} {t : Ticket} {e : DeliveryError} {v : Service}

/-! ### Refusals -/

/-- The worker's request is refused, and the record is part of it. -/
inductive Cause (d : Delivery) (t : Ticket) (v : Service) : DeliveryError → Prop
  | enroll (ps : List TopicPartition) (batches : List (Batch Load)) (barrier : Option Barrier)
      (hp : d.worker.phase = .enrolling ps batches barrier) (batch : Batch Load)
      (hb : batch ∈ batches) (ht : t ∈ batch.tickets) (e : BrokerError)
      (he : v.answer (.enroll d.worker.txid d.worker.identity ps) = .error e) :
      Cause d t v (.ofBroker d.worker.txid d.worker.identity e)
  | append (batch : Batch Load) (rest : List (Batch Load)) (barrier : Option Barrier)
      (hp : d.worker.phase = .appending batch rest barrier) (ht : t ∈ batch.tickets)
      (e : BrokerError) (he : v.answer (.append d.worker.txid d.worker.identity batch.partition
        batch.records) = .error e) :
      Cause d t v (.ofBroker d.worker.txid d.worker.identity e)

theorem of_mem_failAll {e' : DeliveryError} {tickets : List Ticket}
    (h : (t, .error e) ∈ completions (failAll e' tickets)) : t ∈ tickets ∧ e = e' := by
  rw [completions_failAll, List.mem_map] at h
  obtain ⟨t', ht, he⟩ := h
  cases he
  exact ⟨ht, rfl⟩

theorem not_mem_placeAll {p : TopicPartition} {base : Nat} {loads : List Load} :
    (t, .error e) ∉ completions (placeAll p base loads) := by
  simp

/-- A worker that goes on with its batches fails records by the error that is
known. -/
theorem terminal_appendNext (barrier : Option Barrier) : ∀ (batches : List (Batch Load))
    {d : Delivery}, (∀ e, d.shared.fatal = some e → e.isTerminal = true) →
      (t, .error e) ∈ completions (d.appendNext barrier batches).2 → e.isTerminal = true
  | [], d, _, h => by simp [appendNext, completions] at h
  | batch :: rest, d, hf, h => by
    rw [appendNext] at h
    split at h
    · rename_i e' he'
      rw [completions_append, List.mem_append] at h
      rcases h with h | h
      · rw [(of_mem_failAll h).2]
        exact hf e' he'
      · exact terminal_appendNext barrier rest
          (d := { d with shared := d.shared.countFailed batch.items.length }) hf h
    · simp [completions] at h

/-- Only a terminal error is kept. -/
theorem terminal_refused (hf : d.shared.fatal = none) (err : BrokerError) (e : DeliveryError)
    (h : (d.refused err).1.shared.fatal = some e) : e.isTerminal = true := by
  unfold refused at h
  simp only at h
  split at h
  · rename_i ht
    have hlatched : d.shared.fatal.or
        (some (DeliveryError.ofBroker d.worker.txid d.worker.identity err)) = some e := by
      cases err <;> exact h
    rw [hf] at hlatched
    rw [← Option.some.inj hlatched]
    exact ht
  · have hsame : d.shared.fatal = some e := by cases err <;> exact h
    rw [hf] at hsame
    cases hsame

/-- **Whatever fails with an answer has a cause**, or a terminal error. -/
theorem caused_answered (hf : d.shared.fatal = none) {q : Request}
    (hq : d.worker.request? = some q)
    (h : (t, .error e) ∈ completions (d.answered (v.answer q)).2) :
    e.isTerminal = true ∨ Cause d t v e := by
  have hnone : ∀ e, d.shared.fatal = some e → e.isTerminal = true := by simp [hf]
  rw [Worker.request?] at hq
  unfold answered at h
  cases hp : d.worker.phase with
  | idle => simp [hp] at hq
  | stopped => simp [hp] at hq
  | enrolling ps batches barrier =>
    rw [hp] at hq h
    obtain rfl := Option.some.inj hq
    cases ha : v.answer (.enroll d.worker.txid d.worker.identity ps) with
    | error err =>
      rw [ha] at h
      obtain ⟨ht, rfl⟩ := of_mem_failAll h
      obtain ⟨batch, hb, ht⟩ := List.mem_flatMap.mp ht
      exact Or.inr (.enroll ps batches barrier hp batch hb ht err ha)
    | ok reply =>
      rw [ha] at h
      cases reply with
      | enrolled =>
        exact Or.inl (terminal_appendNext barrier batches
          (d := { d with worker := { d.worker with enrolled := d.worker.enrolled ++ ps } }) hnone h)
      | _ => simp [completions] at h
  | appending batch rest barrier =>
    rw [hp] at hq h
    obtain rfl := Option.some.inj hq
    cases ha : v.answer (.append d.worker.txid d.worker.identity batch.partition batch.records) with
    | error err =>
      rw [ha] at h
      simp only [completions_append, List.mem_append] at h
      rcases h with h | h
      · obtain ⟨ht, rfl⟩ := of_mem_failAll h
        exact Or.inr (.append batch rest barrier hp ht err ha)
      · exact Or.inl (terminal_appendNext barrier rest (d := { (d.refused err).1 with
          shared := (d.refused err).1.shared.countFailed batch.items.length })
          (terminal_refused hf err) h)
    | ok reply =>
      rw [ha] at h
      cases reply with
      | appended base =>
        simp only [completions_append, List.mem_append] at h
        exact Or.inl (terminal_appendNext barrier rest
          (d := { d with shared := d.shared.countAcknowledged batch.items.length }) hnone
          (h.resolve_left not_mem_placeAll))
      | _ => simp [completions] at h

theorem of_mem_misrouted : ∀ {ps : List Pending}, (t, .error e) ∈ completions (misrouted ps) →
    ∃ p ∈ ps, p.ticket = t ∧ p.target = .error e
  | ⟨.ok _, _, _⟩ :: ps, h => by
    have hrest : (t, .error e) ∈ completions (misrouted ps) := h
    obtain ⟨p, hp, h⟩ := of_mem_misrouted hrest
    exact ⟨p, List.mem_cons_of_mem _ hp, h⟩
  | ⟨.error e', _, t'⟩ :: ps, h => by
    rcases List.mem_cons.mp h with h | hrest
    · cases h
      exact ⟨_, List.mem_cons_self, rfl, rfl⟩
    · obtain ⟨p, hp, h⟩ := of_mem_misrouted hrest
      exact ⟨p, List.mem_cons_of_mem _ hp, h⟩

/-- A round fails what was queued without a partition. -/
theorem failed_round (hf : d.shared.fatal = none) {visible : Nat}
    (h : (t, .error e) ∈ completions (d.round visible).2) :
    ∃ p ∈ pendings d.worker.queue, p.ticket = t ∧ p.target = .error e := by
  by_cases hi : d.worker.phase = .idle
  · obtain ⟨pending, rest, hq, hpasses⟩ := passes_round hi visible
    rw [(hpasses.whole hf).2.1] at h
    obtain ⟨p, hp, h⟩ := of_mem_misrouted h
    exact ⟨p, hq ▸ List.mem_append_left _ hp, h⟩
  · rw [round_of_busy hi] at h
    simp [completions] at h

/-! ### Records that are too large, and partitions that are unknown -/

/-- The worker has asked a broker to append the batch that holds the record. A
record of the batch has this size, and the broker takes `max` bytes at most. -/
def Overfilled (d : Delivery) (t : Ticket) (v : Service) (size max : Nat) : Prop :=
  ∃ batch rest barrier b now, d.worker.phase = .appending batch rest barrier ∧
    t ∈ batch.tickets ∧ v = .handled b now ∧ b.config.maxRecordBytes = max ∧ max < size ∧
      ∃ r ∈ batch.records, r.size = size

/-- The worker has asked a broker to enroll the partition, among others, for the
batch that holds the record, or to append the batch to it. The broker has no log
of it. -/
def Lacking (d : Delivery) (t : Ticket) (v : Service) (p : TopicPartition) : Prop :=
  ∃ batch b now, t ∈ batch.tickets ∧ v = .handled b now ∧ b.log? p = none ∧
    ((∃ ps batches barrier, d.worker.phase = .enrolling ps batches barrier ∧ batch ∈ batches ∧
        p ∈ ps) ∨
      ∃ rest barrier, d.worker.phase = .appending batch rest barrier ∧ batch.partition = p)

theorem errorClass_of_isTerminal (h : e.isTerminal = true) : e.errorClass = .fatal := by
  cases e with
  | fenced => rfl
  | rejected err => rfl
  | _ => cases h

/-- A broker blames the request. -/
theorem Cause.blamed (h : d.Cause t v e) (he : e.errorClass = .programmer) :
    ∃ batch b now err, t ∈ batch.tickets ∧ v = .handled b now ∧
      e = .ofBroker d.worker.txid d.worker.identity err ∧
      ((∃ ps batches barrier, d.worker.phase = .enrolling ps batches barrier ∧ batch ∈ batches ∧
          b.Blames (.enroll d.worker.txid d.worker.identity ps) err) ∨
        ∃ rest barrier, d.worker.phase = .appending batch rest barrier ∧
          b.Blames (.append d.worker.txid d.worker.identity batch.partition batch.records) err) := by
  have unrepeated : ∀ {x id err}, (DeliveryError.ofBroker x id err).errorClass = .programmer →
      err.isRetriable = false := fun {x id err} => by
    cases err <;> simp [DeliveryError.ofBroker, DeliveryError.errorClass, BrokerError.isRetriable]
  cases h with
  | enroll ps batches barrier hp batch hb ht err ha =>
    obtain ⟨b, now, hv, hblames⟩ := Service.blames ha (unrepeated he)
    exact ⟨batch, b, now, err, ht, hv, rfl, Or.inl ⟨ps, batches, barrier, hp, hb, hblames⟩⟩
  | append batch rest barrier hp ht err ha =>
    obtain ⟨b, now, hv, hblames⟩ := Service.blames ha (unrepeated he)
    exact ⟨batch, b, now, err, ht, hv, rfl, Or.inr ⟨rest, barrier, hp, hblames⟩⟩

variable {size max : Nat} {topic : String} {n : Int}

theorem overfilled_of_cause (h : d.Cause t v (.recordTooLarge size max)) :
    d.Overfilled t v size max := by
  obtain ⟨batch, b, now, err, ht, hv, he, hblamed⟩ := h.blamed rfl
  obtain rfl : err = .recordTooLarge size max := by
    cases err <;> simp_all [DeliveryError.ofBroker, BrokerError.isRetriable]
  rcases hblamed with ⟨ps, batches, barrier, -, -, -, -, r, hr, -⟩ |
    ⟨rest, barrier, hp, hmax, hlt, hr⟩
  · cases hr
  · exact ⟨batch, rest, barrier, b, now, hp, ht, hv, hmax.symm, hlt, hr⟩

theorem lacking_of_cause (h : d.Cause t v (.unknownPartition topic n)) :
    d.Lacking t v ⟨topic, n⟩ := by
  obtain ⟨batch, b, now, err, ht, hv, he, hblamed⟩ := h.blamed rfl
  obtain rfl : err = .unknownPartition topic n := by
    cases err <;> simp_all [DeliveryError.ofBroker, BrokerError.isRetriable]
  rcases hblamed with ⟨ps, batches, barrier, hp, hb, hm, hl⟩ | ⟨rest, barrier, hp, hm, hl⟩
  · exact ⟨batch, b, now, ht, hv, hl, Or.inl ⟨ps, batches, barrier, hp, hb, hm⟩⟩
  · exact ⟨batch, b, now, ht, hv, hl, Or.inr ⟨rest, barrier, hp, hm⟩⟩

end Delivery
end FencedLog
