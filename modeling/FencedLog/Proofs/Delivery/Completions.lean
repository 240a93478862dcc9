/-
# What becomes of the records of a worker

Whatever a worker takes from its queue it completes or still holds, one for
one, and it counts what it completes (`Delivery.Settles`). A move takes a part
of what is ahead; if there is a flush in it then everything before is completed
(`Delivery.Advances`). Only a kill gives records up: those that are held or
queued.

Beside the worker stands an account of everything that was posted to it and
of everything it has completed. In every run what is completed and held is
what stood before the messages that are still ahead (`Account.Square`).

Key definitions: `completions`, `drops`, `Counters.settle`,
`Delivery.Settles`, `Delivery.Advances`, `Account`.
Key theorems: `Delivery.advances_round`, `Delivery.advances_answered`,
`Account.square_run`.
-/
import FencedLog.Proofs.Scene.Agenda

namespace FencedLog

/-! ### Deeds -/

/-- The sends that are completed, in order. -/
def completions (deeds : List Deed) : List (Ticket × Completion) :=
  deeds.filterMap fun
    | .completed t c => some (t, c)
    | .request _ | .dropped _ => none

/-- The tickets that are given up. -/
def drops (deeds : List Deed) : List Ticket :=
  deeds.filterMap fun
    | .dropped t => some t
    | .request _ | .completed .. => none

theorem completions_append (xs ys : List Deed) :
    completions (xs ++ ys) = completions xs ++ completions ys :=
  List.filterMap_append

theorem drops_append (xs ys : List Deed) : drops (xs ++ ys) = drops xs ++ drops ys :=
  List.filterMap_append

@[simp] theorem completions_failAll (e : DeliveryError) : ∀ ts : List Ticket,
    completions (failAll e ts) = ts.map (·, .error e)
  | [] => rfl
  | _ :: ts => congrArg (_ :: ·) (completions_failAll e ts)

@[simp] theorem drops_failAll (e : DeliveryError) : ∀ ts : List Ticket, drops (failAll e ts) = []
  | [] => rfl
  | _ :: ts => drops_failAll e ts

@[simp] theorem completions_placeAll (p : TopicPartition) : ∀ (loads : List Load) (base : Nat),
    completions (placeAll p base loads) = (placements p base loads).map fun x => (x.1, .ok x.2)
  | [], _ => rfl
  | _ :: loads, base => congrArg (_ :: ·) (completions_placeAll p loads (base + 1))

@[simp] theorem drops_placeAll (p : TopicPartition) : ∀ (loads : List Load) (base : Nat),
    drops (placeAll p base loads) = []
  | [], _ => rfl
  | _ :: loads, base => drops_placeAll p loads (base + 1)

@[simp] theorem drops_misrouted : ∀ ps : List Pending, drops (misrouted ps) = []
  | [] => rfl
  | ⟨.ok _, _, _⟩ :: ps => drops_misrouted ps
  | ⟨.error _, _, _⟩ :: ps => drops_misrouted ps

@[simp] theorem completions_dropped : ∀ ts : List Ticket, completions (ts.map .dropped) = []
  | [] => rfl
  | _ :: ts => completions_dropped ts

@[simp] theorem drops_dropped : ∀ ts : List Ticket, drops (ts.map .dropped) = ts
  | [] => rfl
  | _ :: ts => congrArg (_ :: ·) (drops_dropped ts)

/-- The tickets of loads. -/
def Freight.ticket (x : Freight) : Ticket := x.2.2

@[simp] theorem map_fst_placements (p : TopicPartition) : ∀ (loads : List Load) (base : Nat),
    (placements p base loads).map Prod.fst = loads.map (·.2)
  | [], _ => rfl
  | _ :: loads, base => congrArg (_ :: ·) (map_fst_placements p loads (base + 1))

theorem length_placements (p : TopicPartition) (loads : List Load) (base : Nat) :
    (placements p base loads).length = loads.length := by
  rw [← List.length_map Prod.fst, map_fst_placements, List.length_map]

theorem tickets_loadsOf : ∀ batches : List (Batch Load),
    (loadsOf batches).map Freight.ticket = batches.flatMap Batch.tickets
  | [] => rfl
  | b :: bs => by
    have hb : b.loads.map Freight.ticket = b.tickets := by
      simp [Batch.loads, Batch.tickets, Freight.ticket, Function.comp_def]
    rw [List.flatMap_cons, ← tickets_loadsOf bs, ← hb, ← List.map_append]
    rfl

/-- Every record of a round fails at once or has a partition. -/
theorem tickets_misrouted : ∀ ps : List Pending,
    ((completions (misrouted ps)).map Prod.fst ++ (routed ps).map Freight.ticket).Perm
      (ps.map (·.ticket))
  | [] => .refl _
  | ⟨.ok _, _, ticket⟩ :: ps =>
    List.perm_middle.trans ((tickets_misrouted ps).cons ticket)
  | ⟨.error _, _, ticket⟩ :: ps => (tickets_misrouted ps).cons ticket

/-- What fails at once has the error of its routing. -/
theorem misrouted_failed : ∀ ps : List Pending,
    ∀ c ∈ completions (misrouted ps), ∃ e, c.2 = .error e
  | [], _, h => nomatch h
  | ⟨.ok _, _, _⟩ :: ps, c, h => misrouted_failed ps c h
  | ⟨.error e, _, _⟩ :: ps, c, h => by
    rcases List.mem_cons.mp h with rfl | h
    · exact ⟨e, rfl⟩
    · exact misrouted_failed ps c h

theorem length_completions_misrouted (ps : List Pending) :
    (completions (misrouted ps)).length = (misrouted ps).length := by
  have h := (tickets_misrouted ps).length_eq
  have hl := length_routed_add_misrouted ps
  simp only [List.length_append, List.length_map] at h
  omega

/-! ### Queues -/

namespace Delivery

theorem queued_append : ∀ xs ys : List Message, queued (xs ++ ys) = queued xs ++ queued ys
  | [], _ => rfl
  | .send p :: xs, ys => congrArg (p.ticket :: ·) (queued_append xs ys)
  | .barrier _ :: xs, ys => queued_append xs ys

@[simp] theorem queued_sends : ∀ ps : List Pending, queued (ps.map .send) = ps.map (·.ticket)
  | [] => rfl
  | p :: ps => congrArg (p.ticket :: ·) (queued_sends ps)

@[simp] theorem queued_barrier : ∀ b : Option Barrier,
    queued (b.map Message.barrier).toList = []
  | none => rfl
  | some _ => rfl

/-- What is ahead of a worker is in its queue, but for a barrier. -/
@[simp] theorem queued_agenda (w : Worker) : queued w.agenda = queued w.queue := by
  rw [Worker.agenda, queued_append, queued_barrier, List.nil_append]

end Delivery

/-! ### Counts -/

/-- The counters once these sends have been completed. -/
def Counters.settle (c : Counters) (done : List (Ticket × Completion)) : Counters :=
  { c with
    acknowledged := c.acknowledged + done.countP (·.2.isOk)
    failed := c.failed + done.countP (!·.2.isOk) }

theorem Counters.settle_append (c : Counters) (xs ys : List (Ticket × Completion)) :
    c.settle (xs ++ ys) = (c.settle xs).settle ys := by
  simp only [settle, List.countP_append, Nat.add_assoc]

/-- All fail. -/
theorem Counters.settle_failed (c : Counters) {done : List (Ticket × Completion)}
    (h : ∀ x ∈ done, ∃ e, x.2 = .error e) :
    c.settle done = { c with failed := c.failed + done.length } := by
  have hok : done.countP (·.2.isOk) = 0 := by
    rw [List.countP_eq_zero]
    intro x hx
    obtain ⟨e, he⟩ := h x hx
    simp [he, Except.isOk, Except.toBool]
  have hlen := List.length_eq_countP_add_countP (fun x : Ticket × Completion => x.2.isOk) (l := done)
  simp only [settle, hok, Nat.add_zero]
  congr 2
  rw [hlen, hok, Nat.zero_add]
  congr 1
  funext x
  simp

theorem Counters.settle_failAll (c : Counters) (e : DeliveryError) (ts : List Ticket) :
    c.settle (ts.map (·, .error e)) = { c with failed := c.failed + ts.length } := by
  rw [settle_failed c, List.length_map]
  simp

/-- All are acknowledged. -/
theorem Counters.settle_placeAll (c : Counters) (p : TopicPartition) (base : Nat)
    (loads : List Load) : c.settle ((placements p base loads).map fun x => (x.1, .ok x.2)) =
      { c with acknowledged := c.acknowledged + loads.length } := by
  have hok : ((placements p base loads).map fun x => ((x.1, .ok x.2) : Ticket × Completion)).countP
      (·.2.isOk) = loads.length := by
    rw [List.countP_map, ← length_placements p loads base]
    exact List.countP_eq_length.mpr fun _ _ => rfl
  have hfail : ((placements p base loads).map fun x => ((x.1, .ok x.2) : Ticket × Completion)).countP
      (!·.2.isOk) = 0 := by
    rw [List.countP_map, List.countP_eq_zero]
    simp [Except.isOk, Except.toBool]
  simp only [settle, hok, hfail, Nat.add_zero]

/-! ### One move -/

namespace Delivery

/-- A worker has gone on with the records of these tickets and a barrier: each
is completed and counted, or held; the barrier is acted on when none is held,
and is kept else. -/
structure Settles (d : Delivery) (barrier : Option Barrier) (tickets : List Ticket)
    (r : Delivery × List Deed) : Prop where
  queue : r.1.worker.queue = d.worker.queue
  ends : (r.1.worker.phase = .idle ∧
      (r.1.worker.flushed = true ↔ d.worker.flushed = true ∨ barrier = some .flush)) ∨
    (r.1.worker.phase ≠ .idle ∧ r.1.worker.phase ≠ .stopped ∧
      r.1.worker.phase.barrier = barrier ∧ r.1.worker.flushed = d.worker.flushed)
  tickets : ((completions r.2).map Prod.fst ++ held r.1.worker.phase).Perm tickets
  counters : r.1.shared.counters = d.shared.counters.settle (completions r.2)
  drops : drops r.2 = []

/-- What is completed before. -/
theorem Settles.after {d : Delivery} (d₀ : Delivery) {barrier : Option Barrier} {tickets : List Ticket}
    {r : Delivery × List Deed} (h : d.Settles barrier tickets r) (before : List Deed)
    (hq : d.worker.queue = d₀.worker.queue) (hf : d.worker.flushed = d₀.worker.flushed)
    (hc : d.shared.counters = d₀.shared.counters.settle (completions before))
    (hd : FencedLog.drops before = []) :
    d₀.Settles barrier ((completions before).map Prod.fst ++ tickets) (r.1, before ++ r.2) where
  queue := h.queue.trans hq
  ends := hf ▸ h.ends
  tickets := by
    rw [completions_append, List.map_append, List.append_assoc]
    exact h.tickets.append_left _
  counters := by rw [h.counters, hc, completions_append, Counters.settle_append]
  drops := by rw [drops_append, hd, h.drops, List.nil_append]

theorem Settles.perm {d : Delivery} {barrier : Option Barrier} {tickets tickets' : List Ticket}
    {r : Delivery × List Deed} (h : d.Settles barrier tickets r) (hp : tickets.Perm tickets') :
    d.Settles barrier tickets' r :=
  ⟨h.queue, h.ends, h.tickets.trans hp, h.counters, h.drops⟩

/-- Nothing is left to do before the barrier. -/
theorem settles_reach (d : Delivery) (barrier : Option Barrier) :
    d.Settles barrier [] (d.reach barrier, []) where
  queue := by
    rw [reach_worker]
    rcases barrier with _ | _ | _ <;> rfl
  ends := by
    rw [reach_worker]
    rcases barrier with _ | _ | _ <;> simp [Worker.reached]
  tickets := by
    rw [reach_worker]
    rcases barrier with _ | _ | _ <;> exact .refl _
  counters := by rw [reach_shared]; rfl
  drops := rfl

theorem settles_appendNext (barrier : Option Barrier) :
    ∀ (batches : List (Batch Load)) (d : Delivery),
      d.Settles barrier (batches.flatMap Batch.tickets) (d.appendNext barrier batches)
  | [], d => by
    rw [appendNext]
    exact settles_reach d barrier
  | batch :: rest, d => by
    rw [appendNext, List.flatMap_cons]
    split
    · rename_i e _
      have ih := settles_appendNext barrier rest
        { d with shared := d.shared.countFailed batch.items.length }
      have h := ih.after d (failAll e batch.tickets) rfl rfl (by
        rw [completions_failAll, Counters.settle_failAll, Batch.tickets, List.length_map]
        rfl) (drops_failAll e _)
      simpa [Function.comp_def] using h
    · exact ⟨rfl, Or.inr ⟨by simp [setPhase], by simp [setPhase], rfl, rfl⟩, .refl _, rfl, rfl⟩

theorem settles_dispatch (d : Delivery) (barrier : Option Barrier) (batches : Batches Load) :
    d.Settles barrier (batches.batches.flatMap Batch.tickets) (d.dispatch barrier batches) := by
  unfold dispatch
  split
  · rename_i he
    have hnil : batches.batches = [] := by simpa [Batches.isEmpty] using he
    rw [hnil]
    exact settles_reach d barrier
  · split
    · exact settles_appendNext barrier batches.batches d
    · exact ⟨rfl, Or.inr ⟨by simp [setPhase], by simp [setPhase], rfl, rfl⟩, .refl _, rfl, rfl⟩

/-- The records of a round are completed or held. -/
theorem settles_deliver (d : Delivery) (barrier : Option Barrier) (pending : List Pending) :
    d.Settles barrier (pending.map (·.ticket)) (d.deliver barrier pending) := by
  unfold deliver
  split
  · rename_i e _
    have h := (settles_reach { d with shared := d.shared.countFailed pending.length } barrier).after
      d (failAll e (pending.map (·.ticket))) rfl rfl (by
        rw [completions_failAll, Counters.settle_failAll, List.length_map]
        rfl) (drops_failAll e _)
    simpa [Function.comp_def] using h
  · have hbatches : ((((Batches.empty d.worker.maxBatch).pushAll (routed pending)).batches).flatMap
        Batch.tickets).Perm ((routed pending).map Freight.ticket) := by
      rw [← tickets_loadsOf]
      have hperm := Batches.loads_pushAll (routed pending) (Batches.empty d.worker.maxBatch)
      exact (hperm.trans (by simp [Batches.empty, loadsOf])).map _
    have h := settles_dispatch
      { d with shared := d.shared.countFailed (misrouted pending).length } barrier
      ((Batches.empty d.worker.maxBatch).pushAll (routed pending))
    refine (h.after d (misrouted pending) rfl rfl ?_ (drops_misrouted pending)).perm ?_
    · rw [Counters.settle_failed _ (misrouted_failed pending), length_completions_misrouted]
      rfl
    · exact (hbatches.append_left _).trans (tickets_misrouted pending)

/-- A worker takes a part of what is ahead of it. -/
structure Advances (d : Delivery) (gone : List Message) (r : Delivery × List Deed) : Prop where
  agenda : d.worker.agenda = gone ++ r.1.worker.agenda
  /-- What it held or has taken is completed or held. -/
  tickets : ((completions r.2).map Prod.fst ++ held r.1.worker.phase).Perm
    (held d.worker.phase ++ queued gone)
  counters : r.1.shared.counters = d.shared.counters.settle (completions r.2)
  drops : FencedLog.drops r.2 = []
  /-- A flush is signalled once nothing is held. -/
  flush : .barrier .flush ∈ gone → r.1.worker.phase = .idle ∧ r.1.worker.flushed = true
  signal : r.1.worker.flushed = true → d.worker.flushed = true ∨
    ∃ before, gone = before ++ [.barrier .flush]
  alive : d.worker.phase = .stopped → r = (d, [])

theorem advances_nothing (d : Delivery) : d.Advances [] (d, []) where
  agenda := rfl
  tickets := by simp [completions, queued]
  counters := rfl
  drops := rfl
  flush := fun h => nomatch h
  signal := Or.inl
  alive := fun _ => rfl

/-- A worker that goes on from records that it has taken. -/
theorem Settles.advances {d : Delivery} (d₀ : Delivery) {barrier : Option Barrier} {tickets : List Ticket}
    {r : Delivery × List Deed} (h : d.Settles barrier tickets r) {front : List Message}
    (hfront : ∃ ps : List Pending, front = ps.map .send) (hs : d₀.worker.phase ≠ .stopped)
    (hagenda : d₀.worker.agenda =
      front ++ ((barrier.map .barrier).toList ++ d.worker.queue))
    (htickets : tickets.Perm (held d₀.worker.phase ++ queued front))
    (hf : d.worker.flushed = d₀.worker.flushed) (hc : d.shared.counters = d₀.shared.counters) :
    ∃ gone, d₀.Advances gone r := by
  obtain ⟨ps, rfl⟩ := hfront
  have hno : Message.barrier .flush ∉ ps.map Message.send := by simp
  have halive : d₀.worker.phase = .stopped → r = (d₀, []) := fun hp => absurd hp hs
  rcases h.ends with ⟨hp, hfl⟩ | ⟨hi, hns, hbar, hfl⟩
  · refine ⟨ps.map .send ++ (barrier.map .barrier).toList, ?_, ?_, hc ▸ h.counters, h.drops,
      fun hb => ⟨hp, ?_⟩, fun hr => ?_, halive⟩
    · have hnow : r.1.worker.agenda = d.worker.queue := by
        simp [Worker.agenda, hp, Phase.barrier, h.queue]
      rw [hagenda, hnow, List.append_assoc]
    · rw [queued_append, queued_barrier, List.append_nil]
      exact h.tickets.trans htickets
    · rw [hfl]
      right
      rcases List.mem_append.mp hb with hb | hb
      · exact absurd hb hno
      · rcases barrier with _ | _ | _ <;> simp_all
    · rcases hfl.mp hr with hr | rfl
      · exact Or.inl (hf ▸ hr)
      · exact Or.inr ⟨ps.map .send, rfl⟩
  · refine ⟨ps.map .send, ?_, h.tickets.trans htickets, hc ▸ h.counters, h.drops,
      fun hb => absurd hb hno, fun hr => Or.inl ?_, halive⟩
    · rw [hagenda, Worker.agenda, hbar, h.queue]
    · rw [← hf, ← hfl, hr]

/-- A round takes the front of the queue. -/
theorem advances_round (d : Delivery) (visible : Nat) :
    ∃ gone, d.Advances gone (d.round visible) := by
  by_cases hp : d.worker.phase = .idle
  · obtain ⟨barrier, rest, hq, -, hround⟩ := round_taken hp visible
    rw [hround]
    generalize d.taken visible = pending at hq ⊢
    let d' : Delivery := { d with worker := { d.worker with queue := rest } }
    have hsettles : d'.Settles barrier (pending.map (·.ticket))
        (if pending.isEmpty then (d'.reach barrier, []) else d'.deliver barrier pending) := by
      split
      · rename_i he
        rw [List.isEmpty_iff.mp he]
        exact settles_reach d' barrier
      · exact settles_deliver d' barrier pending
    refine hsettles.advances d ⟨pending, rfl⟩ (by simp [hp]) ?_ ?_ rfl rfl
    · calc d.worker.agenda = d.worker.queue := by simp [Worker.agenda, hp, Phase.barrier]
        _ = pending.map .send ++ (barrier.map .barrier).toList ++ rest := hq
        _ = _ := by simp only [List.append_assoc, d']
    · rw [hp, queued_sends]
      exact .refl _
  · rw [round_of_busy hp]
    exact ⟨[], advances_nothing d⟩

/-- A refusal is not counted yet. -/
theorem refused_keeps (d : Delivery) (e : BrokerError) : (d.refused e).1.worker = d.worker ∧
    (d.refused e).1.shared.counters = d.shared.counters := by
  unfold refused
  refine ⟨rfl, ?_⟩
  cases e <;> simp only [Shared.forget, Shared.latch] <;> split <;> rfl

/-- Whatever the answer to its request, a worker takes nothing but the barrier
it has. -/
theorem advances_answered (d : Delivery) (answer : Answer) :
    ∃ gone, d.Advances gone (d.answered answer) := by
  -- a worker that waits goes on from what it holds
  have goes : ∀ {r : Delivery × List Deed} (barrier : Option Barrier), d.worker.phase ≠ .stopped →
      d.worker.phase.barrier = barrier → d.Settles barrier (held d.worker.phase) r →
      ∃ gone, d.Advances gone r := by
    intro r barrier hs hbar h
    refine h.advances d ⟨[], rfl⟩ hs ?_ ?_ rfl rfl
    · rw [Worker.agenda, hbar]
      rfl
    · simp [queued]
  unfold answered
  split
  · rename_i fresh batches barrier hp
    refine goes barrier (by simp [hp]) (by rw [hp]; rfl) ?_
    have h := settles_appendNext barrier batches
      { d with worker := { d.worker with enrolled := d.worker.enrolled ++ fresh } }
    rw [hp]
    exact ⟨h.queue, h.ends, h.tickets, h.counters, h.drops⟩
  · rename_i fresh batches barrier e hp
    obtain ⟨hw, hc⟩ := refused_keeps d e
    refine goes barrier (by simp [hp]) (by rw [hp]; rfl) ?_
    simp only
    generalize d.refused e = r at hw hc
    obtain ⟨d', err⟩ := r
    simp only at hw hc ⊢
    have h := (settles_reach
      { d' with shared := d'.shared.countFailed (batches.flatMap Batch.tickets).length }
      barrier).after d (failAll err (batches.flatMap Batch.tickets)) (by rw [hw])
      (by rw [hw]) (by
        rw [completions_failAll, Counters.settle_failAll, ← hc]
        rfl) (drops_failAll err _)
    rw [hp]
    simpa [Function.comp_def, held] using h
  · rename_i batch rest barrier base hp
    refine goes barrier (by simp [hp]) (by rw [hp]; rfl) ?_
    have h := (settles_appendNext barrier rest
      { d with shared := d.shared.countAcknowledged batch.items.length }).after d
      (placeAll batch.partition base batch.items) rfl rfl (by
        rw [completions_placeAll, Counters.settle_placeAll]
        rfl) (drops_placeAll _ _ _)
    rw [hp]
    simpa [Function.comp_def, held, Batch.tickets] using h
  · rename_i batch rest barrier e hp
    obtain ⟨hw, hc⟩ := refused_keeps d e
    refine goes barrier (by simp [hp]) (by rw [hp]; rfl) ?_
    simp only
    generalize d.refused e = r at hw hc
    obtain ⟨d', err⟩ := r
    simp only at hw hc ⊢
    have h := (settles_appendNext barrier rest
      { d' with shared := d'.shared.countFailed batch.items.length }).after d
      (failAll err batch.tickets) (by rw [hw]) (by rw [hw]) (by
        rw [completions_failAll, Counters.settle_failAll, ← hc, Batch.tickets, List.length_map]
        rfl) (drops_failAll err _)
    rw [hp]
    simpa [Function.comp_def, held] using h
  · exact ⟨[], advances_nothing d⟩

/-- What a worker holds and has in its queue is what it completes, and what it
then holds and has in its queue. -/
theorem Advances.conserves {d : Delivery} {gone : List Message} {r : Delivery × List Deed}
    (h : d.Advances gone r) : ((completions r.2).map Prod.fst ++
      (held r.1.worker.phase ++ queued r.1.worker.queue)).Perm
        (held d.worker.phase ++ queued d.worker.queue) := by
  rw [← queued_agenda d.worker, h.agenda, queued_append, queued_agenda, ← List.append_assoc,
    ← List.append_assoc]
  exact h.tickets.append_right _

end Delivery

/-! ### Accounts -/

/-- A worker, what was posted to it, and what it has completed. -/
structure Account where
  delivery : Delivery
  posted : List Message
  completed : List (Ticket × Completion)

/-- What may happen to a worker that lives. -/
inductive Account.Move where
  /-- A message is put into its queue. -/
  | post (m : Message)
  /-- The session changes what it shares with the worker. -/
  | share (shared : Shared)
  /-- The session is about to ask for a flush. -/
  | arm
  /-- It takes a round of the first `visible` messages. -/
  | round (visible : Nat)
  /-- Its request is answered. -/
  | answered (answer : Answer)

namespace Account

/-- A worker that has just been started. -/
def start (txid : String) (identity : Identity) (maxBatch : Nat) (shared : Shared) : Account :=
  ⟨.start txid identity maxBatch shared, [], []⟩

/-- The worker has moved. -/
def moved (A : Account) (r : Delivery × List Deed) : Account :=
  { A with delivery := r.1, completed := A.completed ++ completions r.2 }

/-- The session has posted some messages, or changed what is shared. -/
def told (A : Account) (tail : List Message) (flushed : Bool) (shared : Shared) : Account where
  delivery :=
    ⟨{ A.delivery.worker with queue := A.delivery.worker.queue ++ tail, flushed := flushed }, shared⟩
  posted := A.posted ++ tail
  completed := A.completed

def act (A : Account) : Move → Account
  | .post m => A.told [m] A.delivery.worker.flushed A.delivery.shared
  | .share shared => A.told [] A.delivery.worker.flushed shared
  | .arm => A.told [] false A.delivery.shared
  | .round visible => A.moved (A.delivery.round visible)
  | .answered answer => A.moved (A.delivery.answered answer)

def run (A : Account) : List Move → Account
  | [] => A
  | m :: ms => (A.act m).run ms

/-- The messages ahead. -/
def agenda (A : Account) : List Message := A.delivery.worker.agenda

/-- The tickets that are held. -/
def held (A : Account) : List Ticket := Delivery.held A.delivery.worker.phase

/-- From `A` to `B` the worker has acted on a flush. -/
def Signals (A B : Account) : Prop := ∃ before, A.agenda = before ++ .barrier .flush :: B.agenda

/-- What is completed and held is what stood before the messages ahead. -/
def Square (A : Account) : Prop := ∃ before, A.posted = before ++ A.agenda ∧
  (A.completed.map Prod.fst ++ A.held).Perm (Delivery.queued before)

variable {A : Account}

theorem square_start (txid : String) (identity : Identity) (maxBatch : Nat) (shared : Shared) :
    (start txid identity maxBatch shared).Square :=
  ⟨[], rfl, .refl _⟩

theorem Square.moved (h : A.Square) {gone : List Message} {r : Delivery × List Deed}
    (hr : A.delivery.Advances gone r) : ∃ before, A.posted = before ++ A.agenda ∧
      A.posted = (before ++ gone) ++ (A.moved r).agenda ∧
      ((A.moved r).completed.map Prod.fst ++ (A.moved r).held).Perm
        (Delivery.queued (before ++ gone)) := by
  obtain ⟨before, hposted, hperm⟩ := h
  refine ⟨before, hposted, ?_, ?_⟩
  · rw [List.append_assoc, hposted]
    exact congrArg (before ++ ·) hr.agenda
  · simp only [Account.moved, List.map_append, List.append_assoc, Delivery.queued_append]
    calc A.completed.map Prod.fst ++ ((completions r.2).map Prod.fst ++ Delivery.held r.1.worker.phase)
      _ |>.Perm (A.completed.map Prod.fst ++ (A.held ++ Delivery.queued gone)) :=
          hr.tickets.append_left _
      _ |>.Perm (Delivery.queued before ++ Delivery.queued gone) := by
          rw [← List.append_assoc]
          exact hperm.append_right _

theorem agenda_told (A : Account) (tail : List Message) (flushed : Bool) (shared : Shared) :
    (A.told tail flushed shared).agenda = A.agenda ++ tail := by
  simp [agenda, told, Worker.agenda]

/-- Every move takes a part of what is ahead, or puts something behind it. -/
theorem act_cases (A : Account) (m : Move) :
    (∃ tail flushed shared, A.act m = A.told tail flushed shared ∧
      (flushed = true → A.delivery.worker.flushed = true)) ∨
    ∃ gone r, A.delivery.Advances gone r ∧ A.act m = A.moved r := by
  cases m with
  | post message => exact Or.inl ⟨_, _, _, rfl, id⟩
  | share shared => exact Or.inl ⟨_, _, _, rfl, id⟩
  | arm => exact Or.inl ⟨_, _, _, rfl, fun h => nomatch h⟩
  | round visible =>
    obtain ⟨gone, h⟩ := Delivery.advances_round A.delivery visible
    exact Or.inr ⟨gone, _, h, rfl⟩
  | answered answer =>
    obtain ⟨gone, h⟩ := Delivery.advances_answered A.delivery answer
    exact Or.inr ⟨gone, _, h, rfl⟩

theorem square_act (h : A.Square) (m : Move) : (A.act m).Square := by
  rcases act_cases A m with ⟨tail, flushed, shared, hact, -⟩ | ⟨gone, r, hr, hact⟩
  · obtain ⟨before, hposted, hperm⟩ := h
    rw [hact]
    refine ⟨before, ?_, hperm⟩
    rw [agenda_told, ← List.append_assoc, ← hposted]
    rfl
  · obtain ⟨before, -, hposted, hperm⟩ := h.moved hr
    rw [hact]
    exact ⟨before ++ gone, hposted, hperm⟩

theorem square_run (h : A.Square) : ∀ ms : List Move, (A.run ms).Square := by
  intro ms
  induction ms generalizing A with
  | nil => exact h
  | cons m ms ih => exact ih (square_act h m)

/-- **When a worker acts on a flush it has completed what was posted before,
and nothing of what was posted after.** -/
theorem flush_act (h : A.Square) {m : Move} (hs : A.Signals (A.act m)) :
    ∃ before, (A.act m).posted = before ++ .barrier .flush :: (A.act m).agenda ∧
      ((A.act m).completed.map Prod.fst).Perm (Delivery.queued before) ∧
      (A.act m).delivery.worker.phase = .idle ∧ (A.act m).delivery.worker.flushed = true := by
  obtain ⟨front, hfront⟩ := hs
  rcases act_cases A m with ⟨tail, flushed, shared, hact, -⟩ | ⟨gone, r, hr, hact⟩
  · -- no less is ahead than before
    rw [hact, agenda_told] at hfront
    have hlen := congrArg List.length hfront
    simp only [List.length_append, List.length_cons] at hlen
    omega
  · rw [hact] at hfront ⊢
    have hgone : gone = front ++ [.barrier .flush] := by
      have heq : gone ++ (A.moved r).agenda = (front ++ [.barrier .flush]) ++ (A.moved r).agenda := by
        rw [List.append_assoc]
        exact hr.agenda.symm.trans hfront
      exact List.append_cancel_right heq
    obtain ⟨hidle, hflushed⟩ := hr.flush (by simp [hgone])
    obtain ⟨before, -, hposted, hperm⟩ := h.moved hr
    refine ⟨before ++ front, ?_, ?_, hidle, hflushed⟩
    · show A.posted = _
      rw [hposted, hgone]
      simp
    · have hheld : (A.moved r).held = [] := by
        rw [held, show (A.moved r).delivery.worker.phase = .idle from hidle, Delivery.held]
      simpa [hheld, hgone, Delivery.queued_append, Delivery.queued] using hperm

/-- A worker says that it is flushed once it has acted on a flush. -/
theorem signals_act {m : Move} (hbefore : A.delivery.worker.flushed = false)
    (hafter : (A.act m).delivery.worker.flushed = true) : A.Signals (A.act m) := by
  rcases act_cases A m with ⟨tail, flushed, shared, hact, hf⟩ | ⟨gone, r, hr, hact⟩
  · rw [hact] at hafter
    rw [hf hafter] at hbefore
    cases hbefore
  · rw [hact] at hafter ⊢
    rcases hr.signal hafter with hf | ⟨front, rfl⟩
    · rw [hbefore] at hf
      cases hf
    · refine ⟨front, ?_⟩
      rw [agenda, hr.agenda, List.append_assoc]
      rfl

end Account
end FencedLog
