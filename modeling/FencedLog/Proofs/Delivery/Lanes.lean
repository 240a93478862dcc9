/-
# The records of one partition keep their order

The lane of a partition is what a list of loads holds for it, in order. A
batch that still has room is the last one of its partition (`Packed`), so the
batches of a partition hold, one after the other, what was pushed for it: a
lane does not depend on how many records a batch may hold (`lane_pushAll`).

Whatever a worker does, it acknowledges the front of a lane or loses something
of it, and the rest stays in order. Without a terminal error and without a
refusal it loses nothing.

Key definitions: `lane`, `Batches.Packed`, `Delivery.Passes`, `Delivery.Keeps`,
`Delivery.Spares`.
Key theorems: `Batches.lane_pushAll`, `Delivery.keeps_round`,
`Delivery.keeps_answered`, `Delivery.spares_round`, `Delivery.spares_enrolled`,
`Delivery.spares_appended`.
-/
import FencedLog.Proofs.Scene.Certain

namespace FencedLog

/-- The loads of one partition, in order. -/
def lane (p : TopicPartition) (xs : List Freight) : List Load :=
  (xs.filter (·.1 = p)).map (·.2)

/-- The load that a receipt is for. -/
def Receipt.freight (r : Receipt) : Freight := (r.partition, r.record, r.ticket)

/-- How the send of a receipt ends. -/
def Receipt.completion (r : Receipt) : Ticket × Completion := (r.ticket, .ok r.ack.2)

theorem freight_receipts (p : TopicPartition) : ∀ (loads : List Load) (base : Nat),
    (receipts p base loads).map Receipt.freight = loads.map (p, ·)
  | [], _ => rfl
  | _ :: loads, base => congrArg (_ :: ·) (freight_receipts p loads (base + 1))

theorem misrouted_append : ∀ ps qs : List Pending,
    misrouted (ps ++ qs) = misrouted ps ++ misrouted qs
  | [], _ => rfl
  | ⟨.ok _, _, _⟩ :: ps, qs => misrouted_append ps qs
  | ⟨.error _, _, _⟩ :: ps, qs => congrArg (_ :: ·) (misrouted_append ps qs)

variable {p q : TopicPartition} {xs ys : List Freight}

@[simp] theorem lane_nil (p : TopicPartition) : lane p [] = [] := rfl

theorem lane_cons (p : TopicPartition) (x : Freight) (xs : List Freight) :
    lane p (x :: xs) = if x.1 = p then x.2 :: lane p xs else lane p xs := by
  unfold lane
  by_cases h : x.1 = p <;> simp [h]

@[simp] theorem lane_append (p : TopicPartition) (xs ys : List Freight) :
    lane p (xs ++ ys) = lane p xs ++ lane p ys := by
  simp [lane]

theorem mem_lane {l : Load} : l ∈ lane p xs ↔ (p, l) ∈ xs := by
  simp only [lane, List.mem_map, List.mem_filter, decide_eq_true_eq]
  exact ⟨fun ⟨⟨_, _⟩, ⟨h, hp⟩, hl⟩ => hp ▸ hl ▸ h, fun h => ⟨_, ⟨h, rfl⟩, rfl⟩⟩

theorem eq_nil_of_lanes (h : ∀ p, lane p xs = []) : xs = [] :=
  List.eq_nil_iff_forall_not_mem.mpr fun x hx => List.ne_nil_of_mem (mem_lane.mpr hx) (h x.1)

theorem lane_loads (p : TopicPartition) (b : Batch Load) :
    lane p b.loads = if b.partition = p then b.items else [] := by
  unfold lane Batch.loads
  by_cases h : b.partition = p
  · simp [h, List.filter_map, Function.comp_def]
  · simp [h, List.filter_map, Function.comp_def]

theorem loadsOf_cons (b : Batch Load) (bs : List (Batch Load)) :
    loadsOf (b :: bs) = b.loads ++ loadsOf bs := List.flatMap_cons

/-- The lane of a partition that no batch is for. -/
theorem lane_loadsOf_eq_nil {bs : List (Batch Load)} (h : ∀ b ∈ bs, b.partition ≠ p) :
    lane p (loadsOf bs) = [] := by
  induction bs with
  | nil => rfl
  | cons b bs ih =>
    rw [loadsOf_cons, lane_append, lane_loads, if_neg (h b List.mem_cons_self)]
    exact ih fun b' hb' => h b' (List.mem_cons_of_mem _ hb')

/-! ### Batches -/

namespace Batches

/-- A batch that still has room is the last one of its partition. -/
def Packed {α : Type} (limit : Nat) : List (Batch α) → Prop
  | [] => True
  | b :: bs => (b.items.length < limit → ∀ b' ∈ bs, b'.partition ≠ b.partition) ∧ Packed limit bs

theorem mem_place {α : Type} {limit : Nat} {item : α} {b : Batch α} : ∀ {bs : List (Batch α)},
    b ∈ place limit p item bs → b.partition = p ∨ ∃ b' ∈ bs, b.partition = b'.partition
  | [], h => Or.inl (by rw [List.mem_singleton.mp h])
  | c :: bs, h => by
    rw [place] at h
    split at h
    · rename_i hc
      rcases List.mem_cons.mp h with rfl | h
      · exact Or.inl hc.1
      · exact Or.inr ⟨b, List.mem_cons_of_mem _ h, rfl⟩
    · rcases List.mem_cons.mp h with rfl | h
      · exact Or.inr ⟨b, List.mem_cons_self, rfl⟩
      · rcases mem_place h with hp | ⟨b', hb', he⟩
        · exact Or.inl hp
        · exact Or.inr ⟨b', List.mem_cons_of_mem _ hb', he⟩

theorem packed_place {α : Type} {limit : Nat} {item : α} : ∀ {bs : List (Batch α)},
    Packed limit bs → Packed limit (place limit p item bs)
  | [], _ => ⟨fun _ _ hb' => absurd hb' List.not_mem_nil, trivial⟩
  | b :: bs, h => by
    rw [place]
    split
    · refine ⟨fun hroom => h.1 ?_, h.2⟩
      rw [List.length_append] at hroom
      omega
    · rename_i hno
      refine ⟨fun hroom b' hb' => ?_, packed_place h.2⟩
      have hne : b.partition ≠ p := fun hp => hno ⟨hp, hroom⟩
      rcases mem_place hb' with hp | ⟨c, hc, he⟩
      · rw [hp]
        exact hne.symm
      · rw [he]
        exact h.1 hroom c hc

/-- An item comes last in the lane of its partition. -/
theorem lane_place {limit : Nat} {item : Load} (p q : TopicPartition) : ∀ {bs : List (Batch Load)},
    Packed limit bs →
      lane q (loadsOf (place limit p item bs)) = lane q (loadsOf bs) ++ lane q [(p, item)]
  | [], _ => by simp [place, loadsOf, Batch.loads]
  | b :: bs, h => by
    rw [place]
    split
    · rename_i hb
      simp only [loadsOf_cons, lane_append, lane_loads, lane_cons, hb.1, lane_nil]
      by_cases hpq : p = q
      · -- no other batch of the partition comes after one that has room
        have hnone : lane q (loadsOf bs) = [] :=
          lane_loadsOf_eq_nil fun b' hb' => hpq ▸ hb.1 ▸ h.1 hb.2 b' hb'
        simp [hpq, hnone]
      · simp [hpq]
    · rw [loadsOf_cons, loadsOf_cons, lane_append, lane_append, lane_place p q h.2,
        List.append_assoc]

/-- **Each lane of the batches is what was pushed for the partition**, whatever
the limit. -/
theorem lane_pushAll (q : TopicPartition) : ∀ (xs : List Freight) {s : Batches Load},
    Packed s.limit s.batches →
      lane q (loadsOf (s.pushAll xs).batches) = lane q (loadsOf s.batches) ++ lane q xs
  | [], s, _ => by simp [pushAll]
  | (p, item) :: xs, s, h => by
    have ih := lane_pushAll q xs (s := s.push p item) (packed_place h)
    rw [pushAll, ih, push, lane_place p q h, List.append_assoc, ← lane_append]
    rfl

/-- No batch is empty. -/
theorem items_place {α : Type} {limit : Nat} {p : TopicPartition} {item : α} {b : Batch α} :
    ∀ {bs : List (Batch α)}, (∀ b ∈ bs, b.items ≠ []) → b ∈ place limit p item bs → b.items ≠ []
  | [], _, hb => by
    rw [List.mem_singleton.mp hb]
    exact List.cons_ne_nil _ _
  | c :: bs, h, hb => by
    rw [place] at hb
    split at hb
    · rcases List.mem_cons.mp hb with rfl | hb
      · exact List.append_ne_nil_of_right_ne_nil _ (List.cons_ne_nil _ _)
      · exact h b (List.mem_cons_of_mem _ hb)
    · rcases List.mem_cons.mp hb with rfl | hb
      · exact h b List.mem_cons_self
      · exact items_place (fun b' hb' => h b' (List.mem_cons_of_mem _ hb')) hb

theorem items_pushAll {b : Batch Load} : ∀ (xs : List Freight) {s : Batches Load},
    (∀ b ∈ s.batches, b.items ≠ []) → b ∈ (s.pushAll xs).batches → b.items ≠ []
  | [], _, h, hb => h b hb
  | (_, _) :: xs, s, h, hb => items_pushAll xs (s := s.push _ _) (fun _ => items_place h) hb

theorem distinct_subset : ∀ (ps seen : List TopicPartition), distinct seen ps ⊆ ps
  | [], _ => List.Subset.refl _
  | p :: ps, seen => by
    unfold distinct
    split
    · exact List.subset_cons_of_subset _ (distinct_subset ps seen)
    · exact List.cons_subset_cons _ (distinct_subset ps _)

/-- A partition of batches that are not empty has a lane that is not empty. -/
theorem lane_ne_nil {s : Batches Load} (h : ∀ b ∈ s.batches, b.items ≠ []) (hp : p ∈ s.partitions) :
    lane p (loadsOf s.batches) ≠ [] := by
  obtain ⟨b, hb, rfl⟩ := List.mem_map.mp (distinct_subset _ _ hp)
  obtain ⟨l, hl⟩ := List.exists_mem_of_ne_nil _ (h b hb)
  exact List.ne_nil_of_mem (mem_lane.mpr (List.mem_flatMap.mpr ⟨b, hb, List.mem_map_of_mem hl⟩))

theorem lane_batches (q : TopicPartition) (maxBatch : Nat) (xs : List Freight) :
    lane q (loadsOf ((empty maxBatch).pushAll xs).batches) = lane q xs :=
  lane_pushAll q xs (s := empty maxBatch) trivial

end Batches

/-! ### Moves of the worker -/

/-- The partitions whose enrollment the worker waits for. -/
def Phase.fresh : Phase → List TopicPartition
  | enrolling fresh _ _ => fresh
  | idle | appending .. | stopped => []

namespace Delivery

/-- A worker has gone on with some loads: it has them in order, or has lost
some; without a terminal error it has lost none, and completed `done`. -/
structure Passes (d : Delivery) (loads : List Freight) (done : List (Ticket × Completion))
    (r : Delivery × List Deed) : Prop where
  queue : r.1.worker.queue = d.worker.queue
  lanes : ∀ p, (lane p r.1.worker.phase.loads).Sublist (lane p loads)
  whole : d.shared.fatal = none → r.1.shared.fatal = none ∧ completions r.2 = done ∧
    ∀ p, lane p r.1.worker.phase.loads = lane p loads
  /-- Whoever enrolls a partition has something for it. -/
  fresh : ∀ p ∈ r.1.worker.phase.fresh, lane p r.1.worker.phase.loads ≠ []
  /-- Whoever starts enrolls. -/
  started : r.1.shared.started = true → d.shared.started = true ∨ r.1.worker.phase.fresh ≠ []
  topics : r.1.shared.topics = d.shared.topics

theorem passes_reach (d : Delivery) (barrier : Option Barrier) :
    d.Passes [] [] (d.reach barrier, []) := by
  rcases barrier with _ | _ | _ <;>
    exact ⟨rfl, fun _ => List.nil_sublist _, fun h => ⟨h, rfl, fun _ => rfl⟩,
      fun _ h => absurd h List.not_mem_nil, Or.inl, rfl⟩

theorem passes_appendNext (barrier : Option Barrier) : ∀ (batches : List (Batch Load))
    (d : Delivery), d.Passes (loadsOf batches) [] (d.appendNext barrier batches)
  | [], d => passes_reach d barrier
  | batch :: rest, d => by
    rw [appendNext]
    split
    · rename_i e he
      have h := passes_appendNext barrier rest
        { d with shared := d.shared.countFailed batch.items.length }
      refine ⟨h.queue, fun p => (h.lanes p).trans ?_, fun hn => ?_, h.fresh, h.started, h.topics⟩
      · rw [loadsOf_cons, lane_append]
        exact List.sublist_append_right _ _
      · rw [he] at hn
        cases hn
    · exact ⟨rfl, fun _ => .refl _, fun h => ⟨h, rfl, fun _ => rfl⟩,
        fun _ h => absurd h List.not_mem_nil, Or.inl, rfl⟩

theorem passes_dispatch (d : Delivery) (barrier : Option Barrier) {batches : Batches Load}
    (hb : ∀ b ∈ batches.batches, b.items ≠ []) :
    d.Passes (loadsOf batches.batches) [] (d.dispatch barrier batches) := by
  unfold dispatch
  split
  · rename_i he
    rw [List.isEmpty_iff.mp he]
    exact passes_reach d barrier
  · split
    · exact passes_appendNext barrier _ d
    · rename_i fresh hne
      refine ⟨rfl, fun _ => .refl _, fun h => ⟨h, rfl, fun _ => rfl⟩, fun p hp => ?_,
        fun _ => Or.inr hne, rfl⟩
      exact Batches.lane_ne_nil hb (List.mem_filter.mp hp).1

/-- The records of a round that have a partition pass, and the others fail at
once. -/
theorem passes_deliver (d : Delivery) (barrier : Option Barrier) (pending : List Pending) :
    d.Passes (routed pending) (completions (misrouted pending)) (d.deliver barrier pending) := by
  have batched := fun p => Batches.lane_batches p d.worker.maxBatch (routed pending)
  unfold deliver
  split
  · rename_i e he
    have h := passes_reach { d with shared := d.shared.countFailed pending.length } barrier
    refine ⟨h.queue, fun p => (h.lanes p).trans (List.nil_sublist _), fun hn => ?_, h.fresh,
      h.started, h.topics⟩
    rw [he] at hn
    cases hn
  · have hitems : ∀ b ∈ ((Batches.empty d.worker.maxBatch).pushAll (routed pending)).batches,
        b.items ≠ [] := fun _ =>
      Batches.items_pushAll _ fun _ h => absurd h List.not_mem_nil
    have h := passes_dispatch { d with shared := d.shared.countFailed (misrouted pending).length }
      barrier hitems
    refine ⟨h.queue, fun p => batched p ▸ h.lanes p, fun hn => ?_, h.fresh, h.started,
      h.topics⟩
    obtain ⟨hf, hc, hl⟩ := h.whole hn
    refine ⟨hf, ?_, fun p => (hl p).trans (batched p)⟩
    simp only [completions_append, hc, List.append_nil]

/-- A round goes on with the front of the queue. -/
theorem passes_round {d : Delivery} (hp : d.worker.phase = .idle) (visible : Nat) :
    ∃ pending rest, pendings d.worker.queue = pending ++ pendings rest ∧
      Passes { d with worker := { d.worker with queue := rest } } (routed pending)
        (completions (misrouted pending)) (d.round visible) := by
  obtain ⟨barrier, rest, hq, -, hround⟩ := round_taken hp visible
  rw [hround]
  generalize d.taken visible = pending at hq ⊢
  refine ⟨pending, rest, ?_, ?_⟩
  · have hbarrier : pendings (barrier.map .barrier).toList = [] := by cases barrier <;> rfl
    rw [hq, pendings_append, pendings_append, pendings_sends, hbarrier, List.append_nil]
  · split
    · rename_i he
      rw [List.isEmpty_iff.mp he]
      exact passes_reach _ barrier
    · exact passes_deliver _ barrier pending

/-! ### Lanes -/

/-- A move of the worker keeps the order of each lane: `landed` has come off
its front, and perhaps something else was lost. -/
def Keeps (d : Delivery) (landed : List Receipt) (r : Delivery × List Deed) : Prop :=
  ∀ p, (lane p (landed.map Receipt.freight) ++ lane p r.1.worker.cargo).Sublist
    (lane p d.worker.cargo)

/-- A move of the worker loses nothing, and completes nothing but what has
landed. -/
structure Spares (d : Delivery) (landed : List Receipt) (r : Delivery × List Deed) : Prop where
  fatal : r.1.shared.fatal = none
  completions : FencedLog.completions r.2 = landed.map Receipt.completion
  lanes : ∀ p, lane p (landed.map Receipt.freight) ++ lane p r.1.worker.cargo =
    lane p d.worker.cargo
  routed : misrouted (pendings d.worker.queue) = [] →
    misrouted (pendings r.1.worker.queue) = []
  fresh : ∀ p ∈ r.1.worker.phase.fresh, lane p r.1.worker.phase.loads ≠ []
  started : r.1.shared.started = true → d.shared.started = true ∨ r.1.worker.phase.fresh ≠ []
  topics : r.1.shared.topics = d.shared.topics

theorem keeps_refl (d : Delivery) : d.Keeps [] (d, []) := fun _ => .refl _

theorem Passes.keeps {d : Delivery} {loads : List Freight} {done : List (Ticket × Completion)}
    {r : Delivery × List Deed} (h : d.Passes loads done r) {d₀ : Delivery} {landed : List Receipt}
    (hc : ∀ p, (lane p (landed.map Receipt.freight) ++ (lane p loads ++
      lane p (routed (pendings d.worker.queue)))).Sublist (lane p d₀.worker.cargo)) :
    d₀.Keeps landed r := fun p => by
  refine List.Sublist.trans ?_ (hc p)
  rw [Worker.cargo, lane_append, h.queue]
  exact (List.Sublist.refl _).append ((h.lanes p).append (.refl _))

/-- Without a terminal error nothing is lost of the lanes. -/
theorem Passes.spares {d : Delivery} {loads : List Freight} {done : List (Ticket × Completion)}
    {r : Delivery × List Deed} (h : d.Passes loads done r) (d₀ : Delivery) (before : List Deed)
    {landed : List Receipt} (hf : d.shared.fatal = none)
    (hs : d.shared.started = d₀.shared.started) (ht : d.shared.topics = d₀.shared.topics)
    (hdone : FencedLog.completions before ++ done = landed.map Receipt.completion)
    (hr : misrouted (pendings d₀.worker.queue) = [] → misrouted (pendings d.worker.queue) = [])
    (hc : ∀ p, lane p d₀.worker.cargo = lane p (landed.map Receipt.freight) ++ (lane p loads ++
      lane p (routed (pendings d.worker.queue)))) : d₀.Spares landed (r.1, before ++ r.2) := by
  obtain ⟨hfatal, hcompleted, hlanes⟩ := h.whole hf
  refine ⟨hfatal, ?_, fun p => ?_, h.queue ▸ hr, h.fresh, hs ▸ h.started, h.topics.trans ht⟩
  · rw [completions_append, hcompleted, hdone]
  · rw [hc p, Worker.cargo, lane_append, h.queue, hlanes p]

theorem lane_cargo_of_idle {w : Worker} (hp : w.phase = .idle) {pending : List Pending}
    {rest : List Message} (hq : pendings w.queue = pending ++ pendings rest) (p : TopicPartition) :
    lane p w.cargo = lane p (routed pending) ++ lane p (routed (pendings rest)) := by
  rw [Worker.cargo, hp, hq, routed_append, ← lane_append]
  rfl

theorem lane_cargo_of_enrolling {w : Worker} {fresh : List TopicPartition}
    {batches : List (Batch Load)} {barrier : Option Barrier}
    (hp : w.phase = .enrolling fresh batches barrier) (p : TopicPartition) :
    lane p w.cargo = lane p (loadsOf batches) ++ lane p (routed (pendings w.queue)) := by
  rw [Worker.cargo, hp, lane_append]
  rfl

theorem lane_cargo_of_appending {w : Worker} {batch : Batch Load} {rest : List (Batch Load)}
    {barrier : Option Barrier} (hp : w.phase = .appending batch rest barrier) (base : Nat)
    (p : TopicPartition) : lane p w.cargo =
      lane p ((receipts batch.partition base batch.items).map Receipt.freight) ++
        (lane p (loadsOf rest) ++ lane p (routed (pendings w.queue))) := by
  rw [Worker.cargo, hp, freight_receipts, lane_append, Phase.loads, lane_append, List.append_assoc]
  rfl

theorem round_of_empty {d : Delivery} (hp : d.worker.phase = .idle) (hq : d.worker.queue = [])
    (visible : Nat) : d.round visible = (d, []) := by
  obtain ⟨⟨txid, identity, maxBatch, queue, enrolled, phase, flushed⟩, shared⟩ := d
  obtain rfl : phase = .idle := hp
  obtain rfl : queue = [] := hq
  rw [round_of_idle rfl]
  simp only [List.take_nil, List.drop_nil]
  rfl

/-- **A round keeps the order of each lane.** -/
theorem keeps_round (d : Delivery) (visible : Nat) : d.Keeps [] (d.round visible) := by
  by_cases hp : d.worker.phase = .idle
  · obtain ⟨pending, rest, hq, h⟩ := passes_round hp visible
    exact h.keeps fun p => (lane_cargo_of_idle hp hq p).symm ▸ .refl _
  · rw [round_of_busy hp]
    exact d.keeps_refl

/-- Without a terminal error a round loses nothing, if all records have a
partition. -/
theorem spares_round {d : Delivery} (hp : d.worker.phase = .idle) (hf : d.shared.fatal = none)
    (hr : misrouted (pendings d.worker.queue) = []) (visible : Nat) :
    d.Spares [] (d.round visible) := by
  obtain ⟨pending, rest, hq, h⟩ := passes_round hp visible
  rw [hq, misrouted_append, List.append_eq_nil_iff] at hr
  rw [hr.1] at h
  exact h.spares d [] hf rfl rfl rfl (fun _ => hr.2) (lane_cargo_of_idle hp hq)

/-- **An answer keeps the order of each lane**: what has landed comes off the
front. -/
theorem keeps_answered (d : Delivery) (answer : Answer) :
    d.Keeps (d.worker.landed (.replied answer)) (d.answered answer) := by
  unfold answered
  split
  · rename_i fresh batches barrier hp
    rw [landed_of_phase (by simp [hp])]
    exact (passes_appendNext barrier batches _).keeps fun p =>
      (lane_cargo_of_enrolling hp p).symm ▸ .refl _
  · rename_i fresh batches barrier e hp
    obtain ⟨hw, -⟩ := refused_keeps d e
    have h := passes_reach { (d.refused e).1 with
      shared := (d.refused e).1.shared.countFailed (batches.flatMap Batch.tickets).length } barrier
    rw [landed_of_phase (by simp [hp])]
    refine fun p => h.keeps (fun p => ?_) p
    rw [lane_cargo_of_enrolling hp, hw]
    exact List.sublist_append_right _ _
  · rename_i batch rest barrier base hp
    have h := passes_appendNext barrier rest
      { d with shared := d.shared.countAcknowledged batch.items.length }
    rw [Worker.landed, hp]
    exact fun p => h.keeps (fun p => (lane_cargo_of_appending hp base p).symm ▸ .refl _) p
  · rename_i batch rest barrier e hp
    obtain ⟨hw, -⟩ := refused_keeps d e
    have h := passes_appendNext barrier rest { (d.refused e).1 with
      shared := (d.refused e).1.shared.countFailed batch.items.length }
    refine fun p => h.keeps (fun p => ?_) p
    rw [lane_cargo_of_appending hp 0, hw]
    exact List.sublist_append_right _ _
  · rename_i _ _ hunfit _
    rw [landed_of_unfit fun base _ _ _ h hp => hunfit _ _ _ base hp h]
    exact d.keeps_refl

/-- Nothing is lost when partitions are enrolled. -/
theorem spares_enrolled {d : Delivery} (hf : d.shared.fatal = none) {fresh : List TopicPartition}
    {batches : List (Batch Load)} {barrier : Option Barrier}
    (hp : d.worker.phase = .enrolling fresh batches barrier) :
    d.Spares [] (d.answered (.ok .enrolled)) := by
  unfold answered
  rw [hp]
  exact (passes_appendNext barrier batches
    { d with worker := { d.worker with enrolled := d.worker.enrolled ++ fresh } }).spares d [] hf
    rfl rfl rfl id (lane_cargo_of_enrolling hp)

/-- Nothing is lost when a batch is appended, and the batch is completed. -/
theorem spares_appended {d : Delivery} (hf : d.shared.fatal = none) {batch : Batch Load}
    {rest : List (Batch Load)} {barrier : Option Barrier}
    (hp : d.worker.phase = .appending batch rest barrier) (base : Nat) :
    d.Spares (receipts batch.partition base batch.items) (d.answered (.ok (.appended base))) := by
  unfold answered
  rw [hp]
  refine (passes_appendNext barrier rest
    { d with shared := d.shared.countAcknowledged batch.items.length }).spares d
    (placeAll batch.partition base batch.items) hf rfl rfl ?_ id (lane_cargo_of_appending hp base)
  rw [completions_placeAll, List.append_nil, ← acks_receipts, List.map_map]
  rfl

end Delivery
end FencedLog
