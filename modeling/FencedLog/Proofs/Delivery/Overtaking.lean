/-
# The order in which records are completed

A worker completes its records round by round. Once a terminal error is known, a
round completes them as they were queued. Else those that have nowhere to go come
first, in order, and then those of one batch after the other (`Round.order`).
Nothing depends on the answers to the worker's requests.

So a record that has nowhere to go completes after everything that was queued before
it and taken by an earlier round, and after what has nowhere to go either; but it
overtakes the records of its own round that have a partition (`Account.overtakes`).
It is not true that all that was queued before it has completed
(`Account.not_inTurn`).

Key definitions: `Round`, `Round.order`, `Delivery.Ranks`, `Account.rounds`, `Account.Ordered`,
`Account.InTurn`.
Key theorems: `Delivery.ranks_round`, `Delivery.ranks_answered`,
`Account.Ordered.act`, `Account.ordered_run`, `Account.overtakes`.
-/
import FencedLog.Proofs.Delivery.Neighbors

namespace FencedLog

/-! ### Rounds -/

/-- The record has nowhere to go. -/
def Pending.isStray (p : Pending) : Bool :=
  match p.target with
  | .ok _ => false
  | .error _ => true

/-- The tickets of the records that have nowhere to go. -/
def strays (ps : List Pending) : List Ticket := (ps.filter (·.isStray)).map (·.ticket)

theorem isStray_iff {p : Pending} : p.isStray = true ↔ ∃ e, p.target = .error e := by
  unfold Pending.isStray
  cases p.target <;> simp

theorem tickets_strays : ∀ ps : List Pending,
    (completions (misrouted ps)).map Prod.fst = strays ps
  | [] => rfl
  | ⟨.ok _, _, _⟩ :: ps => tickets_strays ps
  | ⟨.error _, _, ticket⟩ :: ps => congrArg (ticket :: ·) (tickets_strays ps)

/-- A round that a worker has taken. -/
structure Round where
  /-- The records that it took from the queue. -/
  taken : List Pending
  /-- How many records a batch may hold. -/
  maxBatch : Nat
  /-- The terminal error that was known then. -/
  fatal : Option DeliveryError

namespace Round

/-- The batches of the records that have a partition. -/
def batches (r : Round) : List (Batch Load) :=
  ((Batches.empty r.maxBatch).pushAll (routed r.taken)).batches

/-- The order in which the records of a round are completed. -/
def order (r : Round) : List Ticket :=
  match r.fatal with
  | some _ => r.taken.map (·.ticket)
  | none => strays r.taken ++ r.batches.flatMap Batch.tickets

/-- What completes before a record of the round that has nowhere to go, of the
records that were queued before it. -/
def passed (r : Round) (front : List Pending) : List Ticket :=
  match r.fatal with
  | some _ => front.map (·.ticket)
  | none => strays front

theorem order_perm (r : Round) : r.order.Perm (r.taken.map (·.ticket)) := by
  unfold order
  split
  · exact .refl _
  · have hbatches : (r.batches.flatMap Batch.tickets).Perm
        ((routed r.taken).map Freight.ticket) := by
      rw [← tickets_loadsOf]
      have hperm := Batches.loads_pushAll (routed r.taken) (Batches.empty r.maxBatch)
      exact (hperm.trans (by simp [Batches.empty, loadsOf])).map _
    rw [← tickets_strays]
    exact (hbatches.append_left _).trans (tickets_misrouted r.taken)

/-- A record that has nowhere to go comes right after what passes it. -/
theorem order_of_stray {r : Round} {front back : List Pending} {p : Pending}
    (ht : r.taken = front ++ p :: back) (hp : p.isStray = true) :
    ∃ rest, r.order = r.passed front ++ p.ticket :: rest := by
  unfold order passed
  rw [ht]
  split
  · exact ⟨back.map (·.ticket), by simp⟩
  · refine ⟨strays back ++ r.batches.flatMap Batch.tickets, ?_⟩
    simp [strays, hp]

theorem mem_passed {r : Round} {front : List Pending} (hn : (front.map (·.ticket)).Nodup)
    {q : Pending} (hq : q ∈ front) :
    q.ticket ∈ r.passed front ↔ r.fatal ≠ none ∨ ∃ e, q.target = .error e := by
  unfold passed
  rw [← isStray_iff]
  cases hf : r.fatal with
  | some e => simp only [List.mem_map_of_mem hq, ne_eq, reduceCtorEq, not_false_eq_true, true_or]
  | none =>
    simp only [ne_eq, not_true_eq_false, false_or, strays, List.mem_map, List.mem_filter]
    constructor
    · rintro ⟨q', ⟨hq', hs⟩, ht⟩
      exact List.inj_on_of_nodup_map hn hq' hq ht ▸ hs
    · exact fun hs => ⟨q, ⟨hq, hs⟩, rfl⟩

end Round

/-! ### One move -/

theorem tickets_failAll (e : DeliveryError) (ts : List Ticket) :
    (completions (failAll e ts)).map Prod.fst = ts := by
  simp [Function.comp_def]

theorem tickets_placeAll (p : TopicPartition) (base : Nat) (b : Batch Load) :
    (completions (placeAll p base b.items)).map Prod.fst = b.tickets := by
  rw [completions_placeAll, List.map_map]
  exact map_fst_placements p b.items base

namespace Delivery

/-- The records of these tickets are completed and then held, in order. -/
def Ranks (tickets : List Ticket) (r : Delivery × List Deed) : Prop :=
  (completions r.2).map Prod.fst ++ held r.1.worker.phase = tickets

/-- What is completed before. -/
theorem Ranks.after {tickets first : List Ticket} {r : Delivery × List Deed} (h : Ranks tickets r)
    {before : List Deed} (hb : (completions before).map Prod.fst = first) :
    Ranks (first ++ tickets) (r.1, before ++ r.2) := by
  unfold Ranks at h ⊢
  rw [completions_append, List.map_append, hb, List.append_assoc, h]

theorem ranks_reach (d : Delivery) (barrier : Option Barrier) : Ranks [] (d.reach barrier, []) := by
  rcases barrier with _ | _ | _ <;> rfl

/-- A worker goes through its batches one after the other. -/
theorem ranks_appendNext (barrier : Option Barrier) : ∀ (batches : List (Batch Load))
    (d : Delivery), Ranks (batches.flatMap Batch.tickets) (d.appendNext barrier batches)
  | [], d => ranks_reach d barrier
  | batch :: rest, d => by
    rw [appendNext, List.flatMap_cons]
    split
    · rename_i e _
      exact (ranks_appendNext barrier rest _).after (tickets_failAll e batch.tickets)
    · rfl

theorem ranks_dispatch (d : Delivery) (barrier : Option Barrier) (batches : Batches Load) :
    Ranks (batches.batches.flatMap Batch.tickets) (d.dispatch barrier batches) := by
  unfold dispatch
  split
  · rename_i he
    rw [List.isEmpty_iff.mp he]
    exact ranks_reach d barrier
  · split
    · exact ranks_appendNext barrier batches.batches d
    · rfl

theorem ranks_deliver (d : Delivery) (barrier : Option Barrier) (pending : List Pending) :
    Ranks (Round.order ⟨pending, d.worker.maxBatch, d.shared.fatal⟩)
      (d.deliver barrier pending) := by
  unfold deliver Round.order
  cases d.shared.fatal with
  | some e =>
    have h := (ranks_reach { d with shared := d.shared.countFailed pending.length } barrier).after
      (tickets_failAll e (pending.map (·.ticket)))
    rw [List.append_nil, List.append_nil] at h
    exact h
  | none => exact (ranks_dispatch _ barrier _).after (tickets_strays pending)

variable {d : Delivery}

/-- **A round goes through its records in this order**, and takes them from the
front of the queue. -/
theorem ranks_round (hi : d.worker.phase = .idle) (visible : Nat) :
    Ranks (Round.order ⟨d.taken visible, d.worker.maxBatch, d.shared.fatal⟩) (d.round visible) ∧
    pendings d.worker.queue = d.taken visible ++ pendings (d.round visible).1.worker.queue := by
  obtain ⟨barrier, rest, hq, -, hround⟩ := round_taken hi visible
  rw [hround]
  generalize d.taken visible = pending at hq ⊢
  have hqueue : pendings d.worker.queue = pending ++ pendings rest := by
    calc pendings d.worker.queue
        = pendings (pending.map .send ++ (barrier.map .barrier).toList ++ rest) := by rw [hq]
      _ = pending ++ (pendings (barrier.map .barrier).toList ++ pendings rest) := by
          simp only [pendings_append, pendings_sends, List.append_assoc]
      _ = _ := by cases barrier <;> rfl
  by_cases he : pending = []
  · subst he
    simp only [List.isEmpty_nil, ↓reduceIte, reach_worker, Worker.reached_queue]
    refine ⟨?_, hqueue⟩
    have hnil : Round.order ⟨[], d.worker.maxBatch, d.shared.fatal⟩ = [] := by
      cases d.shared.fatal <;> rfl
    rw [hnil]
    exact ranks_reach _ barrier
  · have hne : pending.isEmpty = false := by simpa using he
    simp only [hne, Bool.false_eq_true, ↓reduceIte]
    refine ⟨ranks_deliver _ barrier pending, ?_⟩
    rw [(settles_deliver _ barrier pending).queue, hqueue]

/-- **An answer goes on with what is held, in order.** -/
theorem ranks_answered (d : Delivery) (answer : Answer) :
    Ranks (held d.worker.phase) (d.answered answer) ∧
      (d.answered answer).1.worker.queue = d.worker.queue := by
  unfold answered
  split
  · rename_i fresh batches barrier hp
    rw [hp]
    exact ⟨ranks_appendNext barrier batches _, (settles_appendNext barrier batches _).queue⟩
  · rename_i fresh batches barrier e hp
    let failed : Delivery := { (d.refused e).1 with
      shared := (d.refused e).1.shared.countFailed (batches.flatMap Batch.tickets).length }
    have h := (ranks_reach failed barrier).after
      (tickets_failAll (d.refused e).2 (batches.flatMap Batch.tickets))
    rw [List.append_nil, List.append_nil] at h
    rw [hp]
    refine ⟨h, ?_⟩
    simp only [reach_worker, Worker.reached_queue, (refused_keeps d e).1]
  · rename_i batch rest barrier base hp
    rw [hp]
    exact ⟨(ranks_appendNext barrier rest _).after (tickets_placeAll batch.partition base batch),
      (settles_appendNext barrier rest _).queue⟩
  · rename_i batch rest barrier e hp
    rw [hp]
    refine ⟨(ranks_appendNext barrier rest _).after
      (tickets_failAll (d.refused e).2 batch.tickets), ?_⟩
    rw [(settles_appendNext barrier rest _).queue, (refused_keeps d e).1]
  · exact ⟨List.nil_append _, rfl⟩

end Delivery

/-! ### Runs -/

namespace Account

/-- The round that a move takes, if any. -/
def taking (A : Account) : Move → List Round
  | .round visible =>
    match A.delivery.worker.phase with
    | .idle =>
      [⟨A.delivery.taken visible, A.delivery.worker.maxBatch, A.delivery.shared.fatal⟩]
    | _ => []
  | _ => []

/-- The rounds of a run. -/
def rounds (A : Account) : List Move → List Round
  | [] => []
  | m :: ms => A.taking m ++ (A.act m).rounds ms

/-- The rounds have taken what was posted, but for what is in the queue, and their
records are completed or held in their order. -/
structure Ordered (A : Account) (rs : List Round) : Prop where
  taken : pendings A.posted = rs.flatMap (·.taken) ++ pendings A.delivery.worker.queue
  order : A.completed.map Prod.fst ++ A.held = rs.flatMap Round.order

variable {A : Account} {rs : List Round}

theorem ordered_start (txid : String) (identity : Identity) (maxBatch : Nat) (shared : Shared) :
    (start txid identity maxBatch shared).Ordered [] :=
  ⟨rfl, rfl⟩

/-- What the session does puts messages at the end of the queue. -/
theorem Ordered.told (h : A.Ordered rs) (tail : List Message) (flushed : Bool) (shared : Shared) :
    (A.told tail flushed shared).Ordered rs where
  taken := by
    show pendings (A.posted ++ tail) = _ ++ pendings (A.delivery.worker.queue ++ tail)
    rw [pendings_append, pendings_append, h.taken, List.append_assoc]
  order := h.order

theorem Ordered.moved (h : A.Ordered rs) {r : Delivery × List Deed} {more : List Round}
    (ht : pendings A.delivery.worker.queue = more.flatMap (·.taken) ++ pendings r.1.worker.queue)
    (ho : Delivery.Ranks (A.held ++ more.flatMap Round.order) r) :
    (A.moved r).Ordered (rs ++ more) where
  taken := by
    show pendings A.posted = _ ++ pendings r.1.worker.queue
    rw [h.taken, ht, List.flatMap_append, List.append_assoc]
  order := by
    show (A.completed ++ completions r.2).map Prod.fst ++ Delivery.held r.1.worker.phase = _
    unfold Delivery.Ranks at ho
    rw [List.map_append, List.append_assoc, ho, ← List.append_assoc, h.order, List.flatMap_append]

/-- **One move.** -/
theorem Ordered.act (h : A.Ordered rs) (m : Move) : (A.act m).Ordered (rs ++ A.taking m) := by
  cases m with
  | post message =>
    show (A.act (.post message)).Ordered (rs ++ [])
    rw [List.append_nil]
    exact h.told _ _ _
  | share shared =>
    show (A.act (.share shared)).Ordered (rs ++ [])
    rw [List.append_nil]
    exact h.told _ _ _
  | arm =>
    show (A.act .arm).Ordered (rs ++ [])
    rw [List.append_nil]
    exact h.told _ _ _
  | answered answer =>
    obtain ⟨ho, hq⟩ := Delivery.ranks_answered A.delivery answer
    show (A.act (.answered answer)).Ordered (rs ++ [])
    refine h.moved ?_ ?_
    · rw [hq]
      rfl
    · rw [List.flatMap_nil, List.append_nil]
      exact ho
  | round visible =>
    by_cases hi : A.delivery.worker.phase = .idle
    · obtain ⟨ho, hq⟩ := Delivery.ranks_round hi visible
      have htaking : A.taking (.round visible) =
          [⟨A.delivery.taken visible, A.delivery.worker.maxBatch, A.delivery.shared.fatal⟩] := by
        simp only [taking, hi]
      rw [htaking]
      refine h.moved ?_ ?_
      · simpa using hq
      · rw [Account.held, hi, Delivery.held, List.nil_append, List.flatMap_singleton]
        exact ho
    · have htaking : A.taking (.round visible) = [] := by
        unfold taking
        split <;> simp_all
      have hstay : A.act (.round visible) = A := by
        rw [Account.act, Delivery.round_of_busy hi]
        simp [Account.moved, completions]
      rw [htaking, List.append_nil, hstay]
      exact h

theorem Ordered.run : ∀ (ms : List Move) {A : Account} {rs : List Round}, A.Ordered rs →
    (A.run ms).Ordered (rs ++ A.rounds ms)
  | [], _, rs, h => by
    rw [rounds, List.append_nil]
    exact h
  | m :: ms, A, rs, h => by
    rw [rounds, ← List.append_assoc]
    exact Ordered.run ms (h.act m)

theorem ordered_run (txid : String) (identity : Identity) (maxBatch : Nat) (shared : Shared)
    (ms : List Move) : ((start txid identity maxBatch shared).run ms).Ordered
      ((start txid identity maxBatch shared).rounds ms) :=
  (ordered_start txid identity maxBatch shared).run ms

/-! ### What overtakes what -/

/-- Of what the rounds have taken and what is left, a record is in one round or is
left. -/
theorem split_taken {p : Pending} {after rest : List Pending} : ∀ {rs : List Round}
    {before : List Pending}, before ++ p :: after = rs.flatMap (·.taken) ++ rest →
      p ∈ rest ∨ ∃ earlier r later front back, rs = earlier ++ r :: later ∧
        before = earlier.flatMap (·.taken) ++ front ∧ r.taken = front ++ p :: back
  | [], before, h => by
    rw [List.flatMap_nil, List.nil_append] at h
    exact Or.inl (h ▸ by simp)
  | r :: rs, before, h => by
    rw [List.flatMap_cons, List.append_assoc, List.append_eq_append_iff] at h
    rcases h with ⟨front, htaken, hrest⟩ | ⟨more, hbefore, hrest⟩
    · cases front with
      | nil =>
        -- the round ends right before the record
        rw [List.append_nil] at htaken
        have hstart : [] ++ p :: after = rs.flatMap (·.taken) ++ rest := hrest
        rcases split_taken hstart with
          hp | ⟨earlier, r', later, front, back, he, hb, ht⟩
        · exact Or.inl hp
        · exact Or.inr ⟨r :: earlier, r', later, front, back, by rw [he]; rfl,
            by rw [List.flatMap_cons, List.append_assoc, ← hb, htaken, List.append_nil], ht⟩
      | cons q front =>
        obtain ⟨rfl, -⟩ := List.cons.inj hrest
        exact Or.inr ⟨[], r, rs, before, front, rfl, rfl, htaken⟩
    · rcases split_taken hrest.symm with hp | ⟨earlier, r', later, front, back, he, hb, ht⟩
      · exact Or.inl hp
      · exact Or.inr ⟨r :: earlier, r', later, front, back, by rw [he]; rfl,
          by rw [hbefore, hb, List.flatMap_cons, List.append_assoc], ht⟩

theorem flatMap_order_perm : ∀ rs : List Round,
    (rs.flatMap Round.order).Perm ((rs.flatMap (·.taken)).map (·.ticket))
  | [] => .refl _
  | r :: rs => by
    rw [List.flatMap_cons, List.flatMap_cons, List.map_append]
    exact r.order_perm.append (flatMap_order_perm rs)

/-- The records that are completed or held are those that the rounds have taken. -/
theorem mem_flatMap_order {rs : List Round} {t : Ticket} :
    t ∈ rs.flatMap Round.order ↔ t ∈ (rs.flatMap (·.taken)).map (·.ticket) :=
  (flatMap_order_perm rs).mem_iff

/-- No record is in the order twice, and none that waits in the queue is in it. -/
theorem Ordered.nodup (h : A.Ordered rs) (hn : ((pendings A.posted).map (·.ticket)).Nodup) :
    (rs.flatMap Round.order).Nodup ∧
      ∀ q ∈ pendings A.delivery.worker.queue, q.ticket ∉ rs.flatMap Round.order := by
  rw [h.taken, List.map_append, List.nodup_append] at hn
  obtain ⟨htaken, -, hapart⟩ := hn
  refine ⟨(flatMap_order_perm rs).nodup_iff.mpr htaken, fun q hq ht => ?_⟩
  exact hapart _ (mem_flatMap_order.mp ht) _ (List.mem_map_of_mem hq) rfl

/-- **A record that has nowhere to go overtakes the records of its own round that
have a partition, and no others.** Before it complete the earlier rounds, and what
passes it in its own; so of the sends that were queued before it, all but those that
its round has taken with a partition while no terminal error was known. -/
theorem overtakes (txid : String) (identity : Identity) (maxBatch : Nat) (shared : Shared)
    (ms : List Move) {before after : List Pending} {p : Pending} {e : DeliveryError}
    {xs ys : List (Ticket × Completion)} {c : Completion} :
    let A := (start txid identity maxBatch shared).run ms
    ((pendings A.posted).map (·.ticket)).Nodup → pendings A.posted = before ++ p :: after →
    p.target = .error e → A.completed = xs ++ (p.ticket, c) :: ys →
      ∃ earlier r later front back,
        (start txid identity maxBatch shared).rounds ms = earlier ++ r :: later ∧
        before = earlier.flatMap (·.taken) ++ front ∧ r.taken = front ++ p :: back ∧
        xs.map Prod.fst = earlier.flatMap Round.order ++ r.passed front ∧
        ∀ q ∈ before, q.ticket ∈ xs.map Prod.fst ↔
          (q ∈ front → r.fatal ≠ none ∨ ∃ err, q.target = .error err) := by
  intro A hn hp he hc
  have hord : A.Ordered ((start txid identity maxBatch shared).rounds ms) :=
    ordered_run txid identity maxBatch shared ms
  generalize (start txid identity maxBatch shared).rounds ms = rs at hord ⊢
  obtain ⟨hnodup, hqueue⟩ := hord.nodup hn
  have horder := hord.order
  rw [hc, List.map_append, List.map_cons, List.append_assoc, List.cons_append] at horder
  rcases split_taken (hp.symm.trans hord.taken) with
    hleft | ⟨earlier, r, later, front, back, hrs, hb, ht⟩
  · -- it is completed, so it waits in the queue no longer
    have hin : p.ticket ∈ rs.flatMap Round.order := by
      rw [← horder]
      simp
    exact absurd hin (hqueue p hleft)
  · subst hrs
    obtain ⟨rest, hr⟩ := Round.order_of_stray ht (isStray_iff.mpr ⟨e, he⟩)
    have hxs : xs.map Prod.fst = earlier.flatMap Round.order ++ r.passed front := by
      have hsplit : xs.map Prod.fst ++ p.ticket :: (ys.map Prod.fst ++ A.held) =
          (earlier.flatMap Round.order ++ r.passed front) ++
            p.ticket :: (rest ++ later.flatMap Round.order) := by
        rw [horder, List.flatMap_append, List.flatMap_cons, hr]
        simp only [List.append_assoc, List.cons_append]
      rw [← horder, List.nodup_middle, List.nodup_cons, List.mem_append, not_or] at hnodup
      exact ((List.append_cons_inj_of_notMem hnodup.1.1 hnodup.1.2).mp hsplit).1
    refine ⟨earlier, r, later, front, back, rfl, hb, ht, hxs, fun q hq => ?_⟩
    -- the tickets of what was queued before differ
    rw [hp, hb, List.map_append, List.nodup_append, List.map_append, List.nodup_append] at hn
    obtain ⟨⟨-, hfront, hapart⟩, -, -⟩ := hn
    rw [hxs, List.mem_append]
    by_cases hqf : q ∈ front
    · have hlate : q.ticket ∉ earlier.flatMap Round.order := fun hin =>
        hapart _ (mem_flatMap_order.mp hin) _ (List.mem_map_of_mem hqf) rfl
      rw [Round.mem_passed hfront hqf]
      simp only [hlate, false_or, hqf, true_implies]
    · have hearly : q ∈ earlier.flatMap (·.taken) := by
        rw [hb, List.mem_append] at hq
        exact hq.resolve_right hqf
      simp only [mem_flatMap_order.mpr (List.mem_map_of_mem hearly), true_or, hqf, false_implies]

/-- Every record that has nowhere to go completes only after every record that was
queued before it. -/
def InTurn (A : Account) : Prop :=
  ∀ before p after e xs c ys, pendings A.posted = before ++ p :: after → p.target = .error e →
    A.completed = xs ++ (p.ticket, c) :: ys → ∀ q ∈ before, q.ticket ∈ xs.map Prod.fst

/-- A record is queued for a partition, and then one for a partition that the topic
does not have. The worker takes both in one round. -/
def mixed : List Move := [
  .post (.send ⟨.ok ⟨"T", 0⟩, ⟨none, ⟨#[1]⟩, 1⟩, ⟨0, .callback⟩⟩),
  .post (.send ⟨.error (.unknownPartition "T" 9), ⟨none, ⟨#[2]⟩, 2⟩, ⟨1, .callback⟩⟩), .round 2]

/-- **The second one completes first**, before the worker has asked for anything. -/
theorem not_inTurn :
    let A := (start "tx" ⟨1000, 0⟩ 500 .start).run mixed
    ((pendings A.posted).map (·.ticket)).Nodup ∧
    A.completed = [(⟨1, .callback⟩, .error (.unknownPartition "T" 9))] ∧
    A.held = [⟨0, .callback⟩] ∧ ¬ A.InTurn := by
  refine ⟨by decide +kernel, rfl, rfl, fun h => ?_⟩
  exact List.not_mem_nil (h [_] _ [] _ [] _ [] rfl rfl rfl _ List.mem_cons_self)

/-- Three records go in two rounds; the last one overtakes the second, not the first. -/
theorem overtakes_twoRounds :
    let ms : List Move := [.post (.send ⟨.ok ⟨"T", 1⟩, ⟨none, ⟨#[0]⟩, 0⟩, ⟨7, .future⟩⟩), .round 1,
      .answered (.ok .enrolled), .answered (.ok (.appended 4))] ++ mixed
    let A := (start "tx" ⟨1000, 0⟩ 500 .start).run ms
    ((pendings A.posted).map (·.ticket)).Nodup ∧
    A.completed.map Prod.fst = [⟨7, .future⟩, ⟨1, .callback⟩] ∧
    ∃ earlier r later front back, (start "tx" ⟨1000, 0⟩ 500 .start).rounds ms =
        earlier ++ r :: later ∧
      (pendings A.posted).take 2 = earlier.flatMap (·.taken) ++ front ∧
      r.taken = front ++ (pendings A.posted).drop 2 ++ back ∧
      [⟨7, .future⟩] = earlier.flatMap Round.order ++ r.passed front := by
  intro ms A
  have hn : ((pendings A.posted).map (·.ticket)).Nodup := by decide +kernel
  have hp : pendings A.posted = (pendings A.posted).take 2 ++
      ⟨.error (.unknownPartition "T" 9), ⟨none, ⟨#[2]⟩, 2⟩, ⟨1, .callback⟩⟩ :: [] := rfl
  have hc : A.completed = [(⟨7, .future⟩, .ok ⟨"T", 1, 4, 0⟩)] ++
      (⟨1, .callback⟩, .error (.unknownPartition "T" 9)) :: [] := rfl
  obtain ⟨earlier, r, later, front, back, hrounds, hbefore, htaken, hxs, -⟩ :=
    overtakes "tx" ⟨1000, 0⟩ 500 .start ms hn hp rfl hc
  exact ⟨hn, rfl, earlier, r, later, front, back, hrounds, hbefore,
    htaken.trans (List.append_assoc front [_] back).symm, hxs⟩

end Account
end FencedLog
