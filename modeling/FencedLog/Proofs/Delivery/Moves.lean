/-
# What a move of the worker does

A worker moves when it takes a round and when its request is answered. Either
way it has records in batches and perhaps a barrier, and goes on with them: it
asks to enroll partitions that are new to it, or asks to append the next
batch, or acts on the barrier (`Worker.Next`). Records only leave its cargo;
none is appended to a partition that it has not enrolled.

Key definitions: `Phase.loads`, `Worker.cargo`, `Worker.reached`,
`Worker.Next`, `Delivery.Goes`, `Delivery.taken`.
Key theorems: `Batches.loads_pushAll`, `Delivery.round_taken`,
`Delivery.goes_round`, `Delivery.goes_enrolled`, `Delivery.goes_appended`,
`Delivery.refused_spec`.
-/
import Mathlib.Data.List.Perm.Subperm
import FencedLog.Delivery.Worker

namespace FencedLog

/-! ### Loads -/

/-- A load with its partition. -/
abbrev Freight := TopicPartition × Load

def Batch.loads (b : Batch Load) : List Freight := b.items.map (b.partition, ·)

/-- The loads of a list of batches. -/
def loadsOf (batches : List (Batch Load)) : List Freight := batches.flatMap Batch.loads

/-- The records among the messages. -/
def pendings : List Message → List Pending
  | [] => []
  | .send p :: rest => p :: pendings rest
  | .barrier _ :: rest => pendings rest

theorem pendings_append : ∀ xs ys : List Message, pendings (xs ++ ys) = pendings xs ++ pendings ys
  | [], _ => rfl
  | .send p :: xs, ys => congrArg (p :: ·) (pendings_append xs ys)
  | .barrier _ :: xs, ys => pendings_append xs ys

@[simp] theorem pendings_sends : ∀ ps : List Pending, pendings (ps.map .send) = ps
  | [] => rfl
  | p :: ps => congrArg (p :: ·) (pendings_sends ps)

theorem routed_append : ∀ ps qs : List Pending, routed (ps ++ qs) = routed ps ++ routed qs
  | [], _ => rfl
  | ⟨.ok _, _, _⟩ :: ps, qs => congrArg (_ :: ·) (routed_append ps qs)
  | ⟨.error _, _, _⟩ :: ps, qs => routed_append ps qs

namespace Phase

/-- What the worker has taken and not completed. -/
def loads : Phase → List Freight
  | enrolling _ batches _ => loadsOf batches
  | appending batch rest _ => batch.loads ++ loadsOf rest
  | idle | stopped => []

/-- The barrier that the worker acts on next. -/
def barrier : Phase → Option Barrier
  | enrolling _ _ barrier => barrier
  | appending _ _ barrier => barrier
  | idle | stopped => none

end Phase

/-- The records that the worker may still append. -/
def Worker.cargo (w : Worker) : List Freight := w.phase.loads ++ routed (pendings w.queue)

namespace Batches

theorem loads_place (limit : Nat) (p : TopicPartition) (item : Load) :
    ∀ bs : List (Batch Load), (loadsOf (place limit p item bs)).Perm (loadsOf bs ++ [(p, item)])
  | [] => .refl _
  | b :: bs => by
    rw [place]
    split
    · rename_i h
      simp only [loadsOf, List.flatMap_cons, Batch.loads, List.map_append, List.map_cons,
        List.map_nil, h.1, List.append_assoc]
      exact .append_left _ List.perm_append_comm
    · simp only [loadsOf, List.flatMap_cons, List.append_assoc]
      exact .append_left _ (loads_place limit p item bs)

/-- Batches hold what was pushed. -/
theorem loads_pushAll : ∀ (xs : List Freight) (s : Batches Load),
    (loadsOf (s.pushAll xs).batches).Perm (loadsOf s.batches ++ xs)
  | [], s => by simp [pushAll]
  | (p, item) :: xs, s => by
    refine (loads_pushAll xs (s.push p item)).trans ?_
    rw [show (p, item) :: xs = [(p, item)] ++ xs from rfl, ← List.append_assoc]
    exact (loads_place s.limit p item s.batches).append_right _

theorem mem_distinct {p : TopicPartition} : ∀ (ps seen : List TopicPartition),
    p ∈ ps → p ∈ seen ∨ p ∈ distinct seen ps
  | q :: ps, seen, h => by
    unfold distinct
    split
    · rename_i hq
      rcases List.mem_cons.mp h with rfl | h
      · exact Or.inl (List.contains_iff_mem.mp hq)
      · exact mem_distinct ps seen h
    · rcases List.mem_cons.mp h with rfl | h
      · exact Or.inr List.mem_cons_self
      · rcases mem_distinct ps (q :: seen) h with h | h
        · rcases List.mem_cons.mp h with rfl | h
          · exact Or.inr List.mem_cons_self
          · exact Or.inl h
        · exact Or.inr (List.mem_cons_of_mem _ h)

/-- Every batch is for one of the partitions. -/
theorem mem_partitions {α : Type} {s : Batches α} {b : Batch α} (h : b ∈ s.batches) :
    b.partition ∈ s.partitions :=
  (mem_distinct _ [] (List.mem_map.mpr ⟨b, h, rfl⟩)).resolve_left List.not_mem_nil

end Batches

/-! ### Going on -/

/-- The worker after it has acted on a barrier, or found none. -/
def Worker.reached (w : Worker) : Option Barrier → Worker
  | none => { w with phase := .idle }
  | some .flush => { w with phase := .idle, flushed := true }
  | some .newTransaction => { w with phase := .idle, enrolled := [] }

/-- How a worker goes on with some loads and a barrier, and what it asks for. -/
inductive Worker.Next (w : Worker) (barrier : Option Barrier) (loads : List Freight) :
    Worker → Option Request → Prop
  | reach : Next w barrier loads (w.reached barrier) none
  | enroll (fresh : List TopicPartition) (batches : List (Batch Load))
      (hne : fresh ≠ []) (hfresh : ∀ p ∈ fresh, p ∉ w.enrolled)
      (hknown : ∀ b ∈ batches, b.partition ∈ w.enrolled ++ fresh)
      (hloads : (loadsOf batches).Subperm loads) :
      Next w barrier loads { w with phase := .enrolling fresh batches barrier }
        (some (.enroll w.txid w.identity fresh))
  | append (batch : Batch Load) (rest : List (Batch Load))
      (hknown : ∀ b ∈ batch :: rest, b.partition ∈ w.enrolled)
      (hloads : (batch.loads ++ loadsOf rest).Subperm loads) :
      Next w barrier loads { w with phase := .appending batch rest barrier }
        (some (.append w.txid w.identity batch.partition batch.records))

theorem Worker.Next.mono {w w' : Worker} {barrier : Option Barrier} {loads more : List Freight}
    {q : Option Request} (h : w.Next barrier loads w' q) (hl : loads.Subperm more) :
    w.Next barrier more w' q := by
  cases h with
  | reach => exact .reach
  | enroll fresh batches hne hf hk hs => exact .enroll fresh batches hne hf hk (hs.trans hl)
  | append batch rest hk hs => exact .append batch rest hk (hs.trans hl)

/-- The requests among the deeds. -/
def requests (deeds : List Deed) : List Request :=
  deeds.filterMap fun
    | .request q => some q
    | .completed .. | .dropped _ => none

/-- The acknowledgments among the deeds. -/
def acks (deeds : List Deed) : List (Ticket × Placement) :=
  deeds.filterMap fun
    | .completed t (.ok placement) => some (t, placement)
    | .completed _ (.error _) | .request _ | .dropped _ => none

theorem requests_append (xs ys : List Deed) : requests (xs ++ ys) = requests xs ++ requests ys :=
  List.filterMap_append

theorem acks_append (xs ys : List Deed) : acks (xs ++ ys) = acks xs ++ acks ys :=
  List.filterMap_append

theorem requests_failAll (e : DeliveryError) : ∀ ts : List Ticket, requests (failAll e ts) = []
  | [] => rfl
  | _ :: ts => requests_failAll e ts

theorem acks_failAll (e : DeliveryError) : ∀ ts : List Ticket, acks (failAll e ts) = []
  | [] => rfl
  | _ :: ts => acks_failAll e ts

theorem requests_misrouted : ∀ ps : List Pending, requests (misrouted ps) = []
  | [] => rfl
  | ⟨.ok _, _, _⟩ :: ps => requests_misrouted ps
  | ⟨.error _, _, _⟩ :: ps => requests_misrouted ps

theorem acks_misrouted : ∀ ps : List Pending, acks (misrouted ps) = []
  | [] => rfl
  | ⟨.ok _, _, _⟩ :: ps => acks_misrouted ps
  | ⟨.error _, _, _⟩ :: ps => acks_misrouted ps

/-- The acknowledgments of loads that were appended from `base` on. -/
def placements (p : TopicPartition) : Nat → List Load → List (Ticket × Placement)
  | _, [] => []
  | base, (r, t) :: rest =>
    (t, ⟨p.topic, p.partition, base, r.time⟩) :: placements p (base + 1) rest

theorem requests_placeAll (p : TopicPartition) : ∀ (loads : List Load) (base : Nat),
    requests (placeAll p base loads) = []
  | [], _ => rfl
  | _ :: loads, base => requests_placeAll p loads (base + 1)

theorem acks_placeAll (p : TopicPartition) : ∀ (loads : List Load) (base : Nat),
    acks (placeAll p base loads) = placements p base loads
  | [], _ => rfl
  | (_, _) :: loads, base => congrArg (_ :: ·) (acks_placeAll p loads (base + 1))

namespace Delivery

/-- A worker has gone on with some loads and a barrier: where it stands, and
what it has done. -/
structure Goes (d : Delivery) (barrier : Option Barrier) (loads : List Freight)
    (r : Delivery × List Deed) (q : Option Request) : Prop where
  next : d.worker.Next barrier loads r.1.worker q
  asks : requests r.2 = q.toList
  fatal : r.1.shared.fatal = d.shared.fatal
  started : d.shared.started = true → r.1.shared.started = true
  /-- Whoever enrolls has started. -/
  enrolls : ∀ x id ps, q = some (.enroll x id ps) → r.1.shared.started = true
  /-- After a terminal error nothing is asked. -/
  silent : r.1.shared.fatal ≠ none → q = none

theorem Goes.mono {d : Delivery} {barrier : Option Barrier} {loads more : List Freight}
    {r : Delivery × List Deed} {q : Option Request} (h : Goes d barrier loads r q)
    (hl : loads.Subperm more) : Goes d barrier more r q :=
  ⟨h.next.mono hl, h.asks, h.fatal, h.started, h.enrolls, h.silent⟩

/-- What is done before, without a request, and without a change that matters. -/
theorem Goes.after {d : Delivery} {barrier : Option Barrier} {loads : List Freight}
    {r : Delivery × List Deed} {q : Option Request} (h : Goes d barrier loads r q)
    (d' : Delivery) (hw : d'.worker = d.worker) (hf : d'.shared.fatal = d.shared.fatal)
    (hs : d'.shared.started = d.shared.started) {before : List Deed} (hb : requests before = []) :
    Goes d' barrier loads (r.1, before ++ r.2) q where
  next := hw ▸ h.next
  asks := by rw [requests_append, hb, List.nil_append, h.asks]
  fatal := h.fatal.trans hf.symm
  started := hs ▸ h.started
  enrolls := h.enrolls
  silent := h.silent

theorem reach_worker (d : Delivery) (barrier : Option Barrier) :
    (d.reach barrier).worker = d.worker.reached barrier := by
  cases barrier with
  | none => rfl
  | some b => cases b <;> rfl

theorem reach_shared (d : Delivery) (barrier : Option Barrier) :
    (d.reach barrier).shared = d.shared := by
  cases barrier with
  | none => rfl
  | some b => cases b <;> rfl

/-- To act on the barrier at once, whatever the loads. -/
theorem goes_reach (d : Delivery) (barrier : Option Barrier) (loads : List Freight)
    {deeds : List Deed} (h : requests deeds = []) :
    Goes d barrier loads (d.reach barrier, deeds) none where
  next := by
    rw [reach_worker]
    exact .reach
  asks := h
  fatal := by rw [reach_shared]
  started := fun hs => by rwa [reach_shared]
  enrolls := fun _ _ _ h => nomatch h
  silent := fun _ => rfl

theorem goes_appendNext (barrier : Option Barrier) : ∀ (batches : List (Batch Load)) (d : Delivery),
    (∀ b ∈ batches, b.partition ∈ d.worker.enrolled) →
      (∃ q, Goes d barrier (loadsOf batches) (d.appendNext barrier batches) q) ∧
        acks (d.appendNext barrier batches).2 = []
  | [], d, _ => by
    rw [appendNext]
    exact ⟨⟨none, goes_reach d barrier _ rfl⟩, rfl⟩
  | batch :: rest, d, hknown => by
    rw [appendNext]
    split
    · rename_i e he
      -- the batch fails, and the others as well
      obtain ⟨⟨q, h⟩, ha⟩ := goes_appendNext barrier rest
        { d with shared := d.shared.countFailed batch.items.length }
        fun b hb => hknown b (List.mem_cons_of_mem _ hb)
      have hsub : (loadsOf rest).Subperm (loadsOf (batch :: rest)) :=
        (List.sublist_append_right batch.loads (loadsOf rest)).subperm
      refine ⟨⟨q, (h.mono hsub).after d rfl rfl rfl (requests_failAll e batch.tickets)⟩, ?_⟩
      simp only [acks_append, acks_failAll, ha, List.append_nil]
    · rename_i hn
      refine ⟨⟨_, .append batch rest hknown (.refl _), rfl, rfl, fun hs => hs, ?_,
        fun hf => absurd hn hf⟩, rfl⟩
      intro x id ps h
      cases h

theorem goes_dispatch {d : Delivery} (hf : d.shared.fatal = none) (barrier : Option Barrier)
    (batches : Batches Load) :
    (∃ q, Goes d barrier (loadsOf batches.batches) (d.dispatch barrier batches) q) ∧
      acks (d.dispatch barrier batches).2 = [] := by
  unfold dispatch
  split
  · exact ⟨⟨none, goes_reach d barrier _ rfl⟩, rfl⟩
  · split
    · rename_i hnew
      refine goes_appendNext barrier batches.batches d fun b hb => ?_
      have h := List.filter_eq_nil_iff.mp hnew b.partition (Batches.mem_partitions hb)
      simpa using h
    · rename_i fresh hne
      refine ⟨⟨_, .enroll _ _ ?_ ?_ ?_ (.refl _), rfl, rfl, fun _ => rfl, fun _ _ _ _ => rfl,
        fun hf' => absurd hf hf'⟩, rfl⟩
      · exact hne
      · intro p hp
        simpa using (List.mem_filter.mp hp).2
      · intro b hb
        rw [List.mem_append, List.mem_filter]
        by_cases hk : b.partition ∈ d.worker.enrolled
        · exact Or.inl hk
        · exact Or.inr ⟨Batches.mem_partitions hb, by simpa using hk⟩

/-- The records of a round are delivered, or fail. -/
theorem goes_deliver (d : Delivery) (barrier : Option Barrier) (pending : List Pending) :
    (∃ q, Goes d barrier (routed pending) (d.deliver barrier pending) q) ∧
      acks (d.deliver barrier pending).2 = [] := by
  unfold deliver
  split
  · rename_i e _
    have h := goes_reach { d with shared := d.shared.countFailed pending.length } barrier
      (routed pending) (requests_failAll e (pending.map (·.ticket)))
    exact ⟨⟨none, ⟨h.next, h.asks, h.fatal, h.started, h.enrolls, h.silent⟩⟩, acks_failAll _ _⟩
  · rename_i hn
    obtain ⟨⟨q, h⟩, ha⟩ := goes_dispatch
      (d := { d with shared := d.shared.countFailed (misrouted pending).length }) hn barrier
      ((Batches.empty d.worker.maxBatch).pushAll (routed pending))
    have hsub : (loadsOf ((Batches.empty d.worker.maxBatch).pushAll (routed pending)).batches).Subperm
        (routed pending) := by
      have hperm := Batches.loads_pushAll (routed pending) (Batches.empty d.worker.maxBatch)
      exact (hperm.trans (by simp [Batches.empty, loadsOf])).subperm
    refine ⟨⟨q, (h.mono hsub).after d rfl rfl rfl (requests_misrouted pending)⟩, ?_⟩
    simp only [acks_append, acks_misrouted, ha, List.append_nil]

theorem round_of_idle {d : Delivery} (h : d.worker.phase = .idle) (visible : Nat) :
    d.round visible =
      let (pending, barrier, rest) :=
        takeRound (roundLimit d.worker.maxBatch) (d.worker.queue.take (max visible 1))
      let d := { d with
        worker := { d.worker with queue := rest ++ d.worker.queue.drop (max visible 1) } }
      if pending.isEmpty then (d.reach barrier, []) else d.deliver barrier pending := by
  unfold round
  split
  · rfl
  · rename_i hne
    exact absurd h hne

theorem round_of_busy {d : Delivery} (hp : d.worker.phase ≠ .idle) (visible : Nat) :
    d.round visible = (d, []) := by
  unfold round
  split
  · rename_i h
    exact absurd h hp
  · rfl

/-- The records that a round takes. -/
def taken (d : Delivery) (visible : Nat) : List Pending :=
  (takeRound (roundLimit d.worker.maxBatch) (d.worker.queue.take (max visible 1))).1

/-- An idle worker takes the records from the front of its queue, and perhaps a
barrier after them; it takes something, if there is anything. -/
theorem round_taken {d : Delivery} (h : d.worker.phase = .idle) (visible : Nat) :
    ∃ (barrier : Option Barrier) (rest : List Message),
      d.worker.queue = (d.taken visible).map .send ++ (barrier.map .barrier).toList ++ rest ∧
      (d.worker.queue ≠ [] → rest.length < d.worker.queue.length) ∧
      d.round visible =
        let d' : Delivery := { d with worker := { d.worker with queue := rest } }
        if (d.taken visible).isEmpty then (d'.reach barrier, [])
        else d'.deliver barrier (d.taken visible) := by
  have hmessages := takeRound_messages (roundLimit d.worker.maxBatch)
    (d.worker.queue.take (max visible 1))
  have hless : d.worker.queue.take (max visible 1) ≠ [] → _ :=
    length_takeRound_lt (roundLimit d.worker.maxBatch)
  rw [round_of_idle h, taken]
  generalize takeRound (roundLimit d.worker.maxBatch) (d.worker.queue.take (max visible 1)) = t
    at hmessages hless ⊢
  obtain ⟨pending, barrier, rest⟩ := t
  refine ⟨barrier, rest ++ d.worker.queue.drop (max visible 1), ?_, fun hne => ?_, rfl⟩
  · rw [← List.append_assoc, hmessages, List.take_append_drop]
  · have hne' : d.worker.queue.take (max visible 1) ≠ [] := by
      rw [Ne, List.take_eq_nil_iff]
      rintro (h | h)
      · omega
      · exact hne h
    have hsplit := congrArg List.length (List.take_append_drop (max visible 1) d.worker.queue)
    have hrest : rest.length < (d.worker.queue.take (max visible 1)).length := hless hne'
    simp only [List.length_append] at hsplit ⊢
    omega

/-- A round takes the front of the queue and goes on with its records. -/
theorem goes_round (d : Delivery) (visible : Nat) :
    (d.worker.phase ≠ .idle ∧ d.round visible = (d, [])) ∨
    (d.worker.phase = .idle ∧ ∃ pending barrier rest q,
      d.worker.queue = pending.map .send ++ (barrier.map .barrier).toList ++ rest ∧
      Goes { d with worker := { d.worker with queue := rest } } barrier (routed pending)
        (d.round visible) q ∧
      (pending = [] → q = none ∧
        (d.round visible).1.worker = ({ d.worker with queue := rest } : Worker).reached barrier) ∧
      acks (d.round visible).2 = []) := by
  by_cases hp : d.worker.phase = .idle
  · right
    obtain ⟨barrier, rest, hqueue, -, hround⟩ := round_taken hp visible
    refine ⟨hp, d.taken visible, barrier, rest, ?_⟩
    rw [hround]
    generalize d.taken visible = pending at hqueue ⊢
    by_cases he : pending = []
    · subst he
      simp only [List.isEmpty_nil, ↓reduceIte]
      exact ⟨none, hqueue, goes_reach _ barrier _ rfl, fun _ => ⟨rfl, reach_worker _ barrier⟩, rfl⟩
    · have hne : pending.isEmpty = false := by simpa using he
      simp only [hne, Bool.false_eq_true, ↓reduceIte]
      obtain ⟨⟨q, h⟩, ha⟩ := goes_deliver
        { d with worker := { d.worker with queue := rest } } barrier pending
      exact ⟨q, hqueue, h, fun h => absurd h he, ha⟩
  · exact Or.inl ⟨hp, round_of_busy hp visible⟩

/-! ### Answers -/

/-- The partitions are enrolled: the records are appended. -/
theorem goes_enrolled {d : Delivery} {fresh : List TopicPartition} {batches : List (Batch Load)}
    {barrier : Option Barrier} (hp : d.worker.phase = .enrolling fresh batches barrier)
    (hknown : ∀ b ∈ batches, b.partition ∈ d.worker.enrolled ++ fresh) :
    (∃ q, Goes { d with worker := { d.worker with enrolled := d.worker.enrolled ++ fresh } } barrier
      (loadsOf batches) (d.answered (.ok .enrolled)) q) ∧
      acks (d.answered (.ok .enrolled)).2 = [] := by
  unfold answered
  rw [hp]
  exact goes_appendNext barrier batches _ hknown

/-- A batch is appended: its records are acknowledged. -/
theorem goes_appended {d : Delivery} {batch : Batch Load} {rest : List (Batch Load)}
    {barrier : Option Barrier} (hp : d.worker.phase = .appending batch rest barrier)
    (hknown : ∀ b ∈ rest, b.partition ∈ d.worker.enrolled) (base : Nat) :
    (∃ q, Goes d barrier (loadsOf rest) (d.answered (.ok (.appended base))) q) ∧
      acks (d.answered (.ok (.appended base))).2 = placements batch.partition base batch.items := by
  unfold answered
  rw [hp]
  simp only
  obtain ⟨⟨q, h⟩, ha⟩ := goes_appendNext barrier rest
    { d with shared := d.shared.countAcknowledged batch.items.length } hknown
  refine ⟨⟨q, h.after d rfl rfl rfl (requests_placeAll batch.partition batch.items base)⟩, ?_⟩
  simp only [acks_append, acks_placeAll, ha, List.append_nil]

/-- A refusal leaves the worker as it is, and is remembered if it is terminal. -/
theorem refused_spec (d : Delivery) (e : BrokerError) : (d.refused e).1.worker = d.worker ∧
    (d.refused e).1.shared.started = d.shared.started ∧
    ((d.refused e).1.shared.fatal ≠ none ↔ d.shared.fatal ≠ none ∨ e.isFencing = true) := by
  unfold refused
  simp only [DeliveryError.isTerminal_ofBroker]
  refine ⟨trivial, ?_, ?_⟩
  · cases e <;> simp [BrokerError.isFencing, Shared.latch, Shared.forget]
  · cases e <;> cases hf : d.shared.fatal <;>
      simp [BrokerError.isFencing, Shared.latch, Shared.forget, hf]

/-- The enrollment is refused: the records fail. -/
theorem enroll_refused {d : Delivery} {fresh : List TopicPartition} {batches : List (Batch Load)}
    {barrier : Option Barrier} (hp : d.worker.phase = .enrolling fresh batches barrier)
    (e : BrokerError) : (d.answered (.error e)).1.worker = d.worker.reached barrier ∧
      (d.answered (.error e)).1.shared.started = d.shared.started ∧
      ((d.answered (.error e)).1.shared.fatal ≠ none ↔
        d.shared.fatal ≠ none ∨ e.isFencing = true) ∧
      requests (d.answered (.error e)).2 = [] ∧ acks (d.answered (.error e)).2 = [] := by
  obtain ⟨hw, hs, hf⟩ := refused_spec d e
  unfold answered
  rw [hp]
  simp only [reach_worker, reach_shared, requests_failAll, acks_failAll, and_true]
  refine ⟨by rw [hw], hs, hf⟩

/-- An append is refused: the batch fails, and the worker goes on. -/
theorem append_refused {d : Delivery} {batch : Batch Load} {rest : List (Batch Load)}
    {barrier : Option Barrier} (hp : d.worker.phase = .appending batch rest barrier)
    (hknown : ∀ b ∈ rest, b.partition ∈ d.worker.enrolled) (e : BrokerError) :
    (∃ q, d.worker.Next barrier (loadsOf rest) (d.answered (.error e)).1.worker q ∧
      requests (d.answered (.error e)).2 = q.toList ∧
      (∀ x id ps, q = some (.enroll x id ps) →
        (d.answered (.error e)).1.shared.started = true) ∧
      ((d.answered (.error e)).1.shared.fatal ≠ none → q = none)) ∧
      (d.shared.started = true → (d.answered (.error e)).1.shared.started = true) ∧
      ((d.answered (.error e)).1.shared.fatal ≠ none ↔
        d.shared.fatal ≠ none ∨ e.isFencing = true) ∧
      acks (d.answered (.error e)).2 = [] := by
  have hr := refused_spec d e
  unfold answered
  rw [hp]
  simp only
  generalize d.refused e = r at hr
  obtain ⟨⟨w, shared⟩, err⟩ := r
  obtain ⟨rfl, hs, hf⟩ := hr
  obtain ⟨⟨q, h⟩, ha⟩ := goes_appendNext barrier rest
    ⟨d.worker, shared.countFailed batch.items.length⟩ hknown
  refine ⟨⟨q, h.next, ?_, h.enrolls, h.silent⟩, fun hst => h.started (hs.trans hst), ?_, ?_⟩
  · rw [requests_append, requests_failAll, List.nil_append, h.asks]
  · rw [h.fatal]
    exact hf
  · simp only [acks_append, acks_failAll, ha, List.append_nil]

end Delivery
end FencedLog
