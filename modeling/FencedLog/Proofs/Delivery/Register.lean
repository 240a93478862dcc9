/-
# The partitions that a worker enrolls

A worker has a register of the partitions that it has enrolled since the last
transaction began. Beside the worker stands the record of what it has asked,
what it was answered, and when it has acted on the barrier that begins a
transaction (`Notch`). The register is what the record says: the partitions of
the enrollments that were granted since that barrier (`Registered`). So a
worker appends to no partition but those, and asks to enroll, without a
repetition, only what is not yet among them (`Disciplined`).

Whoever enrolls has said so before: the flag that session and worker share is
raised with the request, and by nothing else (`Delivery.Flags`).

Key definitions: `Notch`, `Enrolls`, `Disciplined`, `Account.trace`,
`Registered`, `Delivery.Flags`.
Key theorems: `Delivery.flags_round`, `Delivery.flags_answered`,
`Worker.registers_next`, `Account.registers_act`, `Account.registered_run`.
-/
import FencedLog.Proofs.Delivery.Completions
import FencedLog.Proofs.Scene.Coupled

namespace FencedLog

/-! ### The flag -/

namespace Batches

theorem nodup_distinct : ∀ ps seen : List TopicPartition,
    (distinct seen ps).Nodup ∧ ∀ p ∈ distinct seen ps, p ∉ seen
  | [], _ => ⟨List.nodup_nil, by simp [distinct]⟩
  | p :: ps, seen => by
    unfold distinct
    split
    · exact nodup_distinct ps seen
    · rename_i hp
      obtain ⟨hnodup, hseen⟩ := nodup_distinct ps (p :: seen)
      refine ⟨List.nodup_cons.mpr ⟨fun hm => hseen p hm List.mem_cons_self, hnodup⟩, ?_⟩
      intro q hq
      rcases List.mem_cons.mp hq with rfl | hq
      · simpa using hp
      · exact fun hm => hseen q hq (List.mem_cons_of_mem p hm)

theorem nodup_partitions {α : Type} (s : Batches α) : s.partitions.Nodup :=
  (nodup_distinct _ []).1

end Batches

/-- There is a request to enroll among the deeds. -/
def Enlists (deeds : List Deed) : Prop := ∃ x id ps, .enroll x id ps ∈ requests deeds

namespace Delivery

/-- The flag is raised with a request to enroll, and by nothing else; such a
request lists each partition once. -/
structure Flags (d : Delivery) (r : Delivery × List Deed) : Prop where
  started : r.1.shared.started = true ↔ d.shared.started = true ∨ Enlists r.2
  distinct : ∀ x id ps, .enroll x id ps ∈ requests r.2 → ps.Nodup

theorem flags_of_silent {d : Delivery} {r : Delivery × List Deed}
    (hs : r.1.shared.started = d.shared.started) (hq : ¬ Enlists r.2) : d.Flags r where
  started := by rw [hs, or_iff_left hq]
  distinct := fun x id ps h => absurd ⟨x, id, ps, h⟩ hq

theorem not_enlists_of_nil {deeds : List Deed} (h : requests deeds = []) : ¬ Enlists deeds := by
  rintro ⟨x, id, ps, hm⟩
  rw [h] at hm
  cases hm

/-- What is done before without a request. -/
theorem Flags.after {d : Delivery} {r : Delivery × List Deed} (h : d.Flags r) (d' : Delivery)
    (hs : d'.shared.started = d.shared.started) {before : List Deed} (hb : requests before = []) :
    d'.Flags (r.1, before ++ r.2) := by
  have hr : requests (before ++ r.2) = requests r.2 := by rw [requests_append, hb, List.nil_append]
  refine ⟨?_, fun x id ps hm => h.distinct x id ps (hr ▸ hm)⟩
  rw [hs, h.started, Enlists, Enlists, hr]

theorem flags_appendNext (barrier : Option Barrier) : ∀ (batches : List (Batch Load)) (d : Delivery),
    d.Flags (d.appendNext barrier batches)
  | [], d => by
    rw [appendNext]
    exact flags_of_silent (by rw [reach_shared]) (not_enlists_of_nil rfl)
  | batch :: rest, d => by
    rw [appendNext]
    split
    · rename_i e _
      exact (flags_appendNext barrier rest
        { d with shared := d.shared.countFailed batch.items.length }).after d rfl
          (requests_failAll e _)
    · exact flags_of_silent rfl (by simp [Enlists, requests])

theorem flags_dispatch (d : Delivery) (barrier : Option Barrier) (batches : Batches Load) :
    d.Flags (d.dispatch barrier batches) := by
  unfold dispatch
  split
  · exact flags_of_silent (by rw [reach_shared]) (not_enlists_of_nil rfl)
  · split
    · exact flags_appendNext barrier batches.batches d
    · refine ⟨iff_of_true rfl (Or.inr ⟨_, _, _, List.mem_singleton.mpr rfl⟩), fun x id ps hm => ?_⟩
      obtain ⟨-, -, rfl⟩ := Request.enroll.inj (List.mem_singleton.mp hm)
      exact batches.nodup_partitions.filter _

theorem flags_deliver (d : Delivery) (barrier : Option Barrier) (pending : List Pending) :
    d.Flags (d.deliver barrier pending) := by
  unfold deliver
  split
  · rename_i e _
    exact flags_of_silent (by rw [reach_shared]; rfl) (not_enlists_of_nil (requests_failAll e _))
  · exact (flags_dispatch { d with shared := d.shared.countFailed (misrouted pending).length }
      barrier _).after d rfl (requests_misrouted pending)

theorem flags_nothing (d : Delivery) : d.Flags (d, []) :=
  flags_of_silent rfl (not_enlists_of_nil rfl)

theorem flags_round (d : Delivery) (visible : Nat) : d.Flags (d.round visible) := by
  by_cases hp : d.worker.phase = .idle
  · obtain ⟨barrier, rest, -, -, hround⟩ := round_taken hp visible
    rw [hround]
    simp only
    split
    · exact flags_of_silent (by rw [reach_shared]) (not_enlists_of_nil rfl)
    · have h := flags_deliver { d with worker := { d.worker with queue := rest } } barrier
        (d.taken visible)
      exact ⟨h.started, h.distinct⟩
  · rw [round_of_busy hp]
    exact flags_nothing d

theorem flags_answered (d : Delivery) (answer : Answer) : d.Flags (d.answered answer) := by
  unfold answered
  split
  · rename_i fresh batches barrier _
    have h := flags_appendNext barrier batches
      { d with worker := { d.worker with enrolled := d.worker.enrolled ++ fresh } }
    exact ⟨h.started, h.distinct⟩
  · rename_i fresh batches barrier e _
    exact flags_of_silent (by rw [reach_shared]; exact (refused_spec d e).2.1)
      (not_enlists_of_nil (requests_failAll ..))
  · rename_i batch rest barrier base _
    exact (flags_appendNext barrier rest
      { d with shared := d.shared.countAcknowledged batch.items.length }).after d rfl
        (requests_placeAll ..)
  · rename_i batch rest barrier e _
    have hs := (refused_spec d e).2.1
    simp only
    generalize d.refused e = r at hs
    obtain ⟨d', err⟩ := r
    exact (flags_appendNext barrier rest
      { d' with shared := d'.shared.countFailed batch.items.length }).after d hs.symm
        (requests_failAll ..)
  · exact flags_nothing d

end Delivery

/-! ### The record -/

/-- What matters to the enrollments of a worker. -/
inductive Notch where
  | asked (q : Request)
  /-- The request asked last is answered. -/
  | answered (answer : Answer)
  /-- The worker acts on the barrier that begins a transaction. -/
  | begun
deriving DecidableEq

/-- Since the last transaction began, an enrollment of `ps` was asked for and
granted. -/
def Enrolls (record : List Notch) (ps : List TopicPartition) : Prop :=
  ∃ before x id after,
    record = before ++ .asked (.enroll x id ps) :: .answered (.ok .enrolled) :: after ∧
      .begun ∉ after

/-- A worker appends to partitions that it has enrolled in the transaction, and
asks to enroll some that it has not, each once. -/
structure Disciplined (record : List Notch) : Prop where
  appends : ∀ before x id p records after,
    record = before ++ .asked (.append x id p records) :: after → ∃ ps, Enrolls before ps ∧ p ∈ ps
  enrolls : ∀ before x id ps after, record = before ++ .asked (.enroll x id ps) :: after →
    ps ≠ [] ∧ ps.Nodup ∧ ∀ qs, Enrolls before qs → ∀ p ∈ ps, p ∉ qs

section Record

variable {record : List Notch} {n : Notch} {q : Request} {ps : List TopicPartition}

/-- The last entry stands at the end, and the others stand before it. -/
theorem concat_eq_append_cons {α : Type} {xs before after : List α} {x y : α}
    (h : xs ++ [x] = before ++ y :: after) :
    (xs = before ∧ x = y ∧ after = []) ∨ ∃ rest, xs = before ++ y :: rest ∧ after = rest ++ [x] := by
  rcases List.eq_nil_or_concat' after with rfl | ⟨rest, z, rfl⟩
  · obtain ⟨hxs, hx⟩ := List.append_singleton_inj.mp h
    exact Or.inl ⟨hxs, hx, rfl⟩
  · rw [← List.cons_append, ← List.append_assoc, List.append_singleton_inj] at h
    obtain ⟨hxs, rfl⟩ := h
    exact Or.inr ⟨rest, hxs, rfl⟩

/-- An entry adds an enrollment if it grants the one asked for last; a new
transaction has none. -/
theorem enrolls_concat : Enrolls (record ++ [n]) ps ↔
    (n ≠ .begun ∧ Enrolls record ps) ∨
      (n = .answered (.ok .enrolled) ∧ ∃ before x id, record = before ++ [.asked (.enroll x id ps)]) := by
  constructor
  · rintro ⟨before, x, id, after, h, ha⟩
    rcases concat_eq_append_cons h with ⟨-, -, h⟩ | ⟨rest, hrecord, h⟩
    · cases h
    · rcases List.eq_nil_or_concat' after with rfl | ⟨after, m, rfl⟩
      · obtain ⟨rfl, rfl⟩ : rest = [] ∧ n = .answered (.ok .enrolled) := by
          cases rest with
          | nil => exact ⟨rfl, (List.cons.inj h).1.symm⟩
          | cons r rest => simp at h
        exact Or.inr ⟨rfl, before, x, id, hrecord⟩
      · rw [← List.cons_append, List.append_singleton_inj] at h
        obtain ⟨rfl, rfl⟩ := h
        simp only [List.mem_append, List.mem_singleton, not_or] at ha
        exact Or.inl ⟨fun hm => ha.2 hm.symm, before, x, id, after, hrecord, ha.1⟩
  · rintro (⟨hn, before, x, id, after, rfl, ha⟩ | ⟨rfl, before, x, id, rfl⟩)
    · exact ⟨before, x, id, after ++ [n], by simp, by simp [ha, Ne.symm hn]⟩
    · exact ⟨before, x, id, [], by simp, by simp⟩

theorem enrolls_asked : Enrolls (record ++ [.asked q]) ps ↔ Enrolls record ps := by
  simp [enrolls_concat]

theorem not_enrolls_begun : ¬ Enrolls (record ++ [.begun]) ps := by
  simp [enrolls_concat]

/-- What the answer to a request adds. -/
theorem enrolls_answered (answer : Answer) : Enrolls (record ++ [.asked q, .answered answer]) ps ↔
    Enrolls record ps ∨ (answer = .ok .enrolled ∧ ∃ x id, q = .enroll x id ps) := by
  rw [show record ++ [.asked q, .answered answer] = (record ++ [.asked q]) ++ [.answered answer] by simp,
    enrolls_concat, enrolls_asked]
  constructor
  · rintro (⟨-, h⟩ | ⟨ha, before, x, id, h⟩)
    · exact Or.inl h
    · obtain ⟨-, hq⟩ := List.append_singleton_inj.mp h
      exact Or.inr ⟨Notch.answered.inj ha, x, id, Notch.asked.inj hq⟩
  · rintro (h | ⟨rfl, x, id, rfl⟩)
    · exact Or.inl ⟨by simp, h⟩
    · exact Or.inr ⟨rfl, record, x, id, rfl⟩

theorem disciplined_nil : Disciplined [] :=
  ⟨by simp, by simp⟩

theorem Disciplined.concat (h : Disciplined record)
    (happend : ∀ x id p records, n = .asked (.append x id p records) → ∃ ps, Enrolls record ps ∧ p ∈ ps)
    (henroll : ∀ x id ps, n = .asked (.enroll x id ps) →
      ps ≠ [] ∧ ps.Nodup ∧ ∀ qs, Enrolls record qs → ∀ p ∈ ps, p ∉ qs) :
    Disciplined (record ++ [n]) where
  appends := fun before x id p records after hsplit => by
    rcases concat_eq_append_cons hsplit with ⟨rfl, hn, -⟩ | ⟨rest, hrecord, -⟩
    · exact happend x id p records hn
    · exact h.appends before x id p records rest hrecord
  enrolls := fun before x id ps after hsplit => by
    rcases concat_eq_append_cons hsplit with ⟨rfl, hn, -⟩ | ⟨rest, hrecord, -⟩
    · exact henroll x id ps hn
    · exact h.enrolls before x id ps rest hrecord

end Record

/-! ### The record of a run -/

/-- How many transactions begin among the messages. -/
def begins : List Message → Nat
  | [] => 0
  | .barrier .newTransaction :: rest => begins rest + 1
  | .barrier .flush :: rest | .send _ :: rest => begins rest

/-- Whether a worker waits for an answer of this kind. -/
def Phase.hears : Phase → Answer → Bool
  | .enrolling .., .ok .enrolled | .enrolling .., .error _ => true
  | .appending .., .ok (.appended _) | .appending .., .error _ => true
  | _, _ => false

namespace Account

/-- The worker has moved: what it asks, and whether the barrier that begins a
transaction is no longer ahead. -/
def noted (A : Account) (r : Delivery × List Deed) : List Notch :=
  (requests r.2).map .asked ++ if begins r.1.worker.agenda < begins A.agenda then [.begun] else []

/-- What a move adds to the record. -/
def notches (A : Account) : Move → List Notch
  | .round visible => A.noted (A.delivery.round visible)
  | .answered answer =>
    if A.delivery.worker.phase.hears answer then
      .answered answer :: A.noted (A.delivery.answered answer)
    else []
  | .post _ | .share _ | .arm => []

/-- The record of a run. -/
def trace (A : Account) : List Move → List Notch
  | [] => []
  | m :: ms => A.notches m ++ (A.act m).trace ms

end Account

theorem begins_sends (ps : List Pending) (ms : List Message) :
    begins (ps.map .send ++ ms) = begins ms := by
  induction ps with
  | nil => rfl
  | cons p ps ih => exact ih

theorem begins_barrier (barrier : Option Barrier) (ms : List Message) :
    begins ((barrier.map .barrier).toList ++ ms) =
      begins ms + if barrier = some .newTransaction then 1 else 0 := by
  rcases barrier with _ | _ | _ <;> rfl

/-- An answer that the worker does not wait for changes nothing. -/
theorem Delivery.answered_of_not_hears {d : Delivery} {answer : Answer}
    (h : d.worker.phase.hears answer = false) : d.answered answer = (d, []) := by
  unfold answered
  split
  · rename_i hp
    simp [hp, Phase.hears] at h
  · rename_i hp
    simp [hp, Phase.hears] at h
  · rename_i hp
    simp [hp, Phase.hears] at h
  · rename_i hp
    simp [hp, Phase.hears] at h
  · rfl

/-! ### The register is what the record says -/

/-- These partitions are enrolled according to the record, and each is listed
once. -/
structure Registered (enrolled : List TopicPartition) (record : List Notch) : Prop where
  mem : ∀ p, p ∈ enrolled ↔ ∃ ps, Enrolls record ps ∧ p ∈ ps
  once : enrolled.Nodup
  disciplined : Disciplined record

namespace Registered

variable {enrolled : List TopicPartition} {record : List Notch} {q : Request}

theorem start : Registered [] [] := ⟨by simp [Enrolls], List.nodup_nil, disciplined_nil⟩

/-- A transaction begins. -/
theorem begun (h : Registered enrolled record) : Registered [] (record ++ [.begun]) :=
  ⟨by simp [not_enrolls_begun], List.nodup_nil, h.disciplined.concat (by simp) (by simp)⟩

/-- Some partitions that are new are asked for. -/
theorem enroll (h : Registered enrolled record) {fresh : List TopicPartition} (hne : fresh ≠ [])
    (hnodup : fresh.Nodup) (hfresh : ∀ p ∈ fresh, p ∉ enrolled) (x : String) (id : Identity) :
    Registered enrolled (record ++ [.asked (.enroll x id fresh)]) where
  mem := by simpa only [enrolls_asked] using h.mem
  once := h.once
  disciplined := h.disciplined.concat (by simp) fun x id ps heq => by
    obtain ⟨-, -, rfl⟩ := Request.enroll.inj (Notch.asked.inj heq)
    exact ⟨hne, hnodup, fun qs hqs p hp hpq => hfresh p hp ((h.mem p).mpr ⟨qs, hqs, hpq⟩)⟩

/-- Records for a partition that is enrolled are to be appended. -/
theorem append (h : Registered enrolled record) {p : TopicPartition} (hp : p ∈ enrolled) (x : String)
    (id : Identity) (records : List Record) :
    Registered enrolled (record ++ [.asked (.append x id p records)]) where
  mem := by simpa only [enrolls_asked] using h.mem
  once := h.once
  disciplined := h.disciplined.concat (fun x id p records heq => by
    obtain ⟨-, -, rfl, -⟩ := Request.append.inj (Notch.asked.inj heq)
    exact (h.mem _).mp hp) (by simp)

/-- What was asked for is granted. -/
theorem granted {before : List Notch} {x : String} {id : Identity} {fresh : List TopicPartition}
    (h : Registered enrolled (before ++ [.asked (.enroll x id fresh)])) (hnodup : fresh.Nodup)
    (hfresh : ∀ p ∈ fresh, p ∉ enrolled) : Registered (enrolled ++ fresh)
      (before ++ [.asked (.enroll x id fresh)] ++ [.answered (.ok .enrolled)]) where
  mem := fun p => by
    have hbefore := h.mem p
    simp only [enrolls_asked] at hbefore
    simp only [List.append_assoc, List.cons_append, List.nil_append, enrolls_answered, true_and,
      Request.enroll.injEq, exists_and_left, exists_eq_left', List.mem_append, hbefore]
    constructor
    · rintro (⟨ps, hps, hp⟩ | hp)
      · exact ⟨ps, Or.inl hps, hp⟩
      · exact ⟨fresh, Or.inr rfl, hp⟩
    · rintro ⟨ps, hps | rfl, hp⟩
      · exact Or.inl ⟨ps, hps, hp⟩
      · exact Or.inr hp
  once := List.nodup_append.mpr ⟨h.once, hnodup, fun p hp p' hf heq => hfresh p' hf (heq ▸ hp)⟩
  disciplined := h.disciplined.concat (by simp) (by simp)

/-- Any other answer grants nothing. -/
theorem answered {before : List Notch} (h : Registered enrolled (before ++ [.asked q])) {answer : Answer}
    (hno : answer = .ok .enrolled → ∀ x id ps, q ≠ .enroll x id ps) :
    Registered enrolled (before ++ [.asked q] ++ [.answered answer]) where
  mem := fun p => by
    have hbefore := h.mem p
    simp only [enrolls_asked] at hbefore
    have hnone : ∀ ps, ¬ (answer = .ok .enrolled ∧ ∃ x id, q = .enroll x id ps) :=
      fun ps ⟨ha, x, id, hq⟩ => hno ha x id ps hq
    simp only [List.append_assoc, List.cons_append, List.nil_append, enrolls_answered, hbefore, hnone,
      or_false]
  once := h.once
  disciplined := h.disciplined.concat (by simp) (by simp)

end Registered

namespace Worker

/-- A worker has enrolled what the record says, and waits for an answer to what
it has asked last. -/
structure Registers (w : Worker) (record : List Notch) : Prop where
  registered : Registered w.enrolled record
  enrolling : ∀ fresh batches barrier, w.phase = .enrolling fresh batches barrier →
    fresh.Nodup ∧ (∀ p ∈ fresh, p ∉ w.enrolled) ∧ ∀ b ∈ batches, b.partition ∈ w.enrolled ++ fresh
  appending : ∀ batch rest barrier, w.phase = .appending batch rest barrier →
    ∀ b ∈ rest, b.partition ∈ w.enrolled
  last : ∀ q, w.request? = some q → ∃ before, record = before ++ [.asked q]

variable {w w' : Worker} {record : List Notch} {barrier : Option Barrier} {loads : List Freight}
  {q : Option Request}

/-- What is ahead of a worker that has gone on. -/
theorem Next.agenda (h : w.Next barrier loads w' q) :
    (q = none ∧ w'.agenda = w.queue) ∨
      (q ≠ none ∧ w'.agenda = (barrier.map .barrier).toList ++ w.queue) := by
  cases h with
  | reach => exact Or.inl ⟨rfl, by rcases barrier with _ | _ | _ <;> rfl⟩
  | enroll => exact Or.inr ⟨by simp, rfl⟩
  | append => exact Or.inr ⟨by simp, rfl⟩

/-- A worker that rests waits for nothing. -/
theorem registers_of_idle (h : Registered w.enrolled record) (hp : w.phase = .idle) :
    w.Registers record :=
  ⟨h, by simp [hp], by simp [hp], by simp [request?, hp]⟩

/-- **A worker that goes on.** It acts on its barrier, asks to enroll what it
has not, or asks to append to what it has enrolled. -/
theorem registers_next (h : Registered w.enrolled record) (hn : w.Next barrier loads w' q)
    (hd : ∀ x id ps, q = some (.enroll x id ps) → ps.Nodup) :
    w'.Registers (record ++ (q.toList.map .asked ++
      if q = none ∧ barrier = some .newTransaction then [.begun] else [])) := by
  cases hn with
  | reach =>
    refine registers_of_idle ?_ (by rcases barrier with _ | _ | _ <;> rfl)
    rcases barrier with _ | _ | _
    · simpa [reached] using h
    · simpa [reached] using h
    · exact h.begun
  | enroll fresh batches hne hfresh hknown =>
    have hnodup := hd _ _ _ rfl
    have hregistered := h.enroll hne hnodup hfresh w.txid w.identity
    simp only [Option.toList_some, List.map_cons, List.map_nil, reduceCtorEq, false_and, ↓reduceIte,
      List.append_nil]
    refine ⟨hregistered, fun fresh' batches' barrier' heq => ?_, by simp, fun q' hq' => ?_⟩
    · obtain ⟨rfl, rfl, -⟩ := Phase.enrolling.inj heq
      exact ⟨hnodup, hfresh, hknown⟩
    · exact ⟨record, by rw [← Option.some.inj hq']⟩
  | append batch rest hknown =>
    have hregistered := h.append (hknown batch List.mem_cons_self) w.txid w.identity batch.records
    simp only [Option.toList_some, List.map_cons, List.map_nil, reduceCtorEq, false_and, ↓reduceIte,
      List.append_nil]
    refine ⟨hregistered, by simp, fun batch' rest' barrier' heq => ?_, fun q' hq' => ?_⟩
    · obtain ⟨rfl, rfl, -⟩ := Phase.appending.inj heq
      exact fun b hb => hknown b (List.mem_cons_of_mem _ hb)
    · exact ⟨record, by rw [← Option.some.inj hq']⟩

end Worker

namespace Account

variable {A : Account} {record : List Notch}

/-- What a worker notes that goes on with what it has taken. -/
theorem registers_noted {w : Worker} {barrier : Option Barrier} {loads : List Freight}
    {r : Delivery × List Deed} {q : Option Request} (h : Registered w.enrolled record)
    (hn : w.Next barrier loads r.1.worker q) (hasks : requests r.2 = q.toList)
    (hd : ∀ x id ps, .enroll x id ps ∈ requests r.2 → ps.Nodup) {pending : List Pending}
    (ha : A.agenda = pending.map .send ++ ((barrier.map .barrier).toList ++ w.queue)) :
    r.1.worker.Registers (record ++ A.noted r) := by
  have hbegun : begins r.1.worker.agenda < begins A.agenda ↔
      q = none ∧ barrier = some .newTransaction := by
    rw [ha, begins_sends, begins_barrier]
    rcases hn.agenda with ⟨hq, hagenda⟩ | ⟨hq, hagenda⟩
    · rw [hagenda]
      by_cases hb : barrier = some .newTransaction <;> simp [hq, hb]
    · rw [hagenda, begins_barrier]
      simp [hq]
  have hnext := Worker.registers_next h hn fun x id ps hq => hd x id ps (by simp [hasks, hq])
  unfold noted
  simp only [hbegun, hasks]
  exact hnext

/-- A message that comes, or what the session does, is not noted. -/
theorem registers_told (h : A.delivery.worker.Registers record) (tail : List Message) (flushed : Bool)
    (shared : Shared) : (A.told tail flushed shared).delivery.worker.Registers record :=
  ⟨h.registered, h.enrolling, h.appending, h.last⟩

theorem registers_round (h : A.delivery.worker.Registers record) (visible : Nat) :
    (A.act (.round visible)).delivery.worker.Registers (record ++ A.notches (.round visible)) := by
  rcases Delivery.goes_round A.delivery visible with
    ⟨-, hstay⟩ | ⟨hp, pending, barrier, rest, q, hqueue, hgoes, -⟩
  · simpa [act, moved, notches, noted, hstay, requests, agenda] using h
  · have hagenda : A.agenda = pending.map .send ++ ((barrier.map .barrier).toList ++ rest) := by
      rw [← List.append_assoc, ← hqueue]
      simp [agenda, Worker.agenda, hp, Phase.barrier]
    exact registers_noted (w := { A.delivery.worker with queue := rest }) h.registered hgoes.next
      hgoes.asks (Delivery.flags_round A.delivery visible).distinct hagenda

/-- The request that the worker waits for is answered. -/
theorem registers_answered (h : A.delivery.worker.Registers record) (answer : Answer) :
    (A.act (.answered answer)).delivery.worker.Registers (record ++ A.notches (.answered answer)) := by
  have hdistinct := (Delivery.flags_answered A.delivery answer).distinct
  by_cases hh : A.delivery.worker.phase.hears answer = true
  · have hnotches : A.notches (.answered answer) =
        [.answered answer] ++ A.noted (A.delivery.answered answer) := by
      simp [notches, hh]
    rw [hnotches, ← List.append_assoc]
    cases hp : A.delivery.worker.phase with
    | idle => simp [hp, Phase.hears] at hh
    | stopped => simp [hp, Phase.hears] at hh
    | enrolling fresh batches barrier =>
      have hagenda : A.agenda = ([] : List Pending).map .send ++
          ((barrier.map .barrier).toList ++ A.delivery.worker.queue) := by
        simp [agenda, Worker.agenda, hp, Phase.barrier]
      obtain ⟨hnodup, hfresh, hknown⟩ := h.enrolling fresh batches barrier hp
      have hrequest : A.delivery.worker.request? =
          some (.enroll A.delivery.worker.txid A.delivery.worker.identity fresh) := by
        simp only [Worker.request?, hp]
      obtain ⟨before, rfl⟩ := h.last _ hrequest
      cases answer with
      | ok reply =>
        cases reply with
        | enrolled =>
          obtain ⟨⟨q, hgoes⟩, -⟩ := Delivery.goes_enrolled hp hknown
          exact registers_noted
            (w := { A.delivery.worker with enrolled := A.delivery.worker.enrolled ++ fresh })
            (h.registered.granted hnodup hfresh) hgoes.next hgoes.asks hdistinct hagenda
        | _ => simp [hp, Phase.hears] at hh
      | error e =>
        obtain ⟨hworker, -, -, hasks, -⟩ := Delivery.enroll_refused hp e
        have hnext : A.delivery.worker.Next barrier [] (A.delivery.answered (.error e)).1.worker none := by
          rw [hworker]
          exact .reach
        exact registers_noted (h.registered.answered (by simp)) hnext hasks hdistinct hagenda
    | appending batch rest barrier =>
      have hagenda : A.agenda = ([] : List Pending).map .send ++
          ((barrier.map .barrier).toList ++ A.delivery.worker.queue) := by
        simp [agenda, Worker.agenda, hp, Phase.barrier]
      have hknown := h.appending batch rest barrier hp
      have hrequest : A.delivery.worker.request? = some (.append A.delivery.worker.txid
          A.delivery.worker.identity batch.partition batch.records) := by
        simp only [Worker.request?, hp]
      obtain ⟨before, rfl⟩ := h.last _ hrequest
      cases answer with
      | ok reply =>
        cases reply with
        | appended base =>
          obtain ⟨⟨q, hgoes⟩, -⟩ := Delivery.goes_appended hp hknown base
          exact registers_noted (w := A.delivery.worker) (h.registered.answered (by simp)) hgoes.next
            hgoes.asks hdistinct hagenda
        | _ => simp [hp, Phase.hears] at hh
      | error e =>
        obtain ⟨⟨q, hnext, hasks, -⟩, -⟩ := Delivery.append_refused hp hknown e
        exact registers_noted (w := A.delivery.worker) (h.registered.answered (by simp)) hnext hasks
          hdistinct hagenda
  · -- nothing is heard, and nothing changes
    have hno : A.delivery.worker.phase.hears answer = false := by simpa using hh
    simpa [act, moved, notches, hno, Delivery.answered_of_not_hears hno] using h

/-- **Every move keeps the register in step with the record.** -/
theorem registers_act (h : A.delivery.worker.Registers record) (m : Move) :
    (A.act m).delivery.worker.Registers (record ++ A.notches m) := by
  cases m with
  | post message => simpa [notches, act] using registers_told h _ _ _
  | share shared => simpa [notches, act] using registers_told h _ _ _
  | arm => simpa [notches, act] using registers_told h _ _ _
  | round visible => exact registers_round h visible
  | answered answer => exact registers_answered h answer

theorem registers_run : ∀ (moves : List Move) {A : Account} {record : List Notch},
    A.delivery.worker.Registers record →
      (A.run moves).delivery.worker.Registers (record ++ A.trace moves)
  | [], _, _, h => by simpa [run, trace] using h
  | m :: moves, A, record, h => by
    have hrun := registers_run moves (registers_act h m)
    rwa [List.append_assoc] at hrun

/-- In every run of a worker the register is what the record says. -/
theorem registered_run (txid : String) (identity : Identity) (maxBatch : Nat) (shared : Shared)
    (moves : List Move) :
    Registered ((start txid identity maxBatch shared).run moves).delivery.worker.enrolled
      ((start txid identity maxBatch shared).trace moves) := by
  have h := registers_run moves (A := start txid identity maxBatch shared)
    (Worker.registers_of_idle Registered.start rfl)
  simpa using h.registered

end Account
end FencedLog
