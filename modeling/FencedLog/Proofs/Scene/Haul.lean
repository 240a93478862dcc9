/-
# What a worker has done of its transaction

While nothing is refused, a worker and its line are known by the loads of the
transaction and by those that were acknowledged: of each lane the front is
acknowledged, at consecutive offsets, and the rest is in the cargo, in order
(`Hauls`). What the broker has got is the front with the batch whose append is
about to be heard of, and it has enrolled what the worker has registered or is
about to hear of (`Worker.Claims`).

Key definitions: `Worker.Concerns`, `Worker.Claims`, `Hauls`.
Key theorems: `Hauls.follow`, `Hauls.move`, `Hauls.reach_enroll`,
`Hauls.reach_append`.
-/
import FencedLog.Proofs.Delivery.Halt
import FencedLog.Proofs.Scene.Enlisted
import FencedLog.Proofs.Session.Manifest

namespace FencedLog

/-- The partitions that the worker has registered or asks to enroll. -/
def Worker.Concerns (w : Worker) (p : TopicPartition) : Prop :=
  w.Registered p ∨ p ∈ w.phase.fresh

/-- The partitions that the broker has enrolled for the worker. -/
def Worker.Claims (w : Worker) (work : Line) (p : TopicPartition) : Prop :=
  w.Registered p ∨ (p ∈ w.phase.fresh ∧ work = .replied (.ok .enrolled))

/-- Where a worker stands with the loads of a transaction, those in `acked`
being acknowledged: nothing was refused, and nothing lost. -/
structure Hauls (b₀ : Broker) (loads : List Freight) (acked : List Receipt) (w : Worker)
    (work : Line) (started : Bool) : Prop where
  alive : w.phase ≠ .stopped
  bound : misrouted (pendings w.queue) = []
  answers : ∀ e, work ≠ .replied (.error e)
  lanes : ∀ p, lane p loads = lane p (acked.map Receipt.freight) ++ lane p w.cargo
  places : ∀ p, acked.filter (·.partition = p) =
    receipts p (b₀.next p) (lane p (acked.map Receipt.freight))
  landed : ∀ p, (w.landed work).filter (·.partition = p) =
    receipts p (b₀.next p + (lane p (acked.map Receipt.freight)).length)
      (lane p ((w.landed work).map Receipt.freight))
  known : ∀ p, lane p (acked.map Receipt.freight) ≠ [] → w.Registered p
  awaited : ∀ p, w.Concerns p → lane p loads ≠ []
  started : started = true ↔ ∃ p, w.Concerns p

theorem Worker.Next.alive {w w' : Worker} {barrier : Option Barrier} {loads : List Freight}
    {q : Option Request} (h : w.Next barrier loads w' q) : w'.phase ≠ .stopped := by
  cases h with
  | reach =>
    rw [Worker.reached_phase]
    exact nofun
  | enroll => exact nofun
  | append => exact nofun

/-- Whoever is about to enroll asks for it. -/
theorem Worker.Next.enrolls {w w' : Worker} {barrier : Option Barrier} {loads : List Freight}
    {q : Option Request} (h : w.Next barrier loads w' q) {p : TopicPartition}
    (hp : p ∈ w'.phase.fresh) : ∃ x id ps, q = some (.enroll x id ps) := by
  cases h with
  | reach =>
    rw [Worker.reached_phase] at hp
    exact absurd hp List.not_mem_nil
  | enroll => exact ⟨_, _, _, rfl⟩
  | append => exact absurd hp List.not_mem_nil

/-! ### Receipts -/

theorem receipts_append (p : TopicPartition) : ∀ (xs ys : List Load) (base : Nat),
    receipts p base (xs ++ ys) = receipts p base xs ++ receipts p (base + xs.length) ys
  | [], _, _ => rfl
  | x :: xs, ys, base => by
    rw [List.cons_append, receipts, receipts_append p xs ys, receipts, List.cons_append,
      List.length_cons, Nat.add_right_comm, Nat.add_assoc]

theorem filter_receipts (p q : TopicPartition) (base : Nat) (loads : List Load) :
    (receipts q base loads).filter (·.partition = p) = if q = p then receipts q base loads else [] := by
  split
  · rename_i h
    exact List.filter_eq_self.mpr fun r hr => by simpa [(mem_receipts hr).1] using h
  · rename_i h
    exact List.filter_eq_nil_iff.mpr fun r hr => by simpa [(mem_receipts hr).1] using h

theorem lane_receipts (p q : TopicPartition) (base : Nat) (loads : List Load) :
    lane p ((receipts q base loads).map Receipt.freight) = if q = p then loads else [] := by
  rw [freight_receipts]
  exact lane_loads p ⟨q, loads⟩

namespace Hauls

variable {b₀ : Broker} {loads : List Freight} {acked : List Receipt} {w w' : Worker} {work : Line}
  {started : Bool}

/-- Records are queued, or a flush. -/
theorem follow (h : Hauls b₀ loads acked w work started) (hp : w'.phase = w.phase)
    (hr : ∀ p, w'.Registered p ↔ w.Registered p) {ps : List Pending}
    (hq : pendings w'.queue = pendings w.queue ++ ps) (hm : misrouted ps = []) :
    Hauls b₀ (loads ++ routed ps) acked w' work started := by
  have hlanded : w'.landed work = w.landed work := by
    unfold Worker.landed
    rw [hp]
  have hconcerns : ∀ p, w'.Concerns p ↔ w.Concerns p := fun p => by
    rw [Worker.Concerns, hr, hp, Worker.Concerns]
  refine ⟨hp ▸ h.alive, ?_, h.answers, fun p => ?_, h.places, ?_, fun p hk => ?_,
    fun p hc => ?_, ?_⟩
  · rw [hq, misrouted_append, h.bound, hm]
    rfl
  · rw [lane_append, h.lanes, Worker.cargo, Worker.cargo, hp, hq, routed_append, lane_append,
      lane_append, lane_append, List.append_assoc, List.append_assoc]
  · rw [hlanded]
    exact h.landed
  · exact (hr p).mpr (h.known p hk)
  · rw [lane_append]
    exact List.append_ne_nil_of_left_ne_nil (h.awaited p ((hconcerns p).mp hc)) _
  · rw [h.started]
    exact exists_congr fun p => (hconcerns p).symm

/-! ### The worker moves -/

/-- What the worker moves on from, without a refusal, is what the broker has
enrolled. -/
theorem claims_of_source {w₀ : Worker} {barrier : Option Barrier} {taken : List Freight}
    {acks : List (Ticket × Placement)} (hs : Source w work w₀ barrier taken acks none)
    (hreset : w.phase ≠ .idle → .barrier .newTransaction ∉ w.agenda) (p : TopicPartition) :
    (w.Concerns p ↔ w.Claims work p) ∧
      (w.Claims work p ↔ .barrier .newTransaction ∉ w.agenda ∧ p ∈ w₀.enrolled) := by
  cases hs with
  | round pending barrier rest hp hq =>
    simp [Worker.Concerns, Worker.Claims, Worker.Registered, hp, Phase.fresh]
  | enrolled fresh batches barrier hp hl =>
    have hno := hreset (by simp [hp])
    simp [Worker.Concerns, Worker.Claims, Worker.Registered, hp, hl, hno, Phase.fresh]
  | appended batch rest barrier base hp hl =>
    have hno := hreset (by simp [hp])
    simp [Worker.Concerns, Worker.Claims, Worker.Registered, hp, hno, Phase.fresh]

/-- **The worker moves on**: what has landed is acknowledged. -/
theorem move (h : Hauls b₀ loads acked w work started) {d₀ : Delivery} {r : Delivery × List Deed}
    {barrier : Option Barrier} {taken : List Freight} {acks : List (Ticket × Placement)}
    {q : Option Request} {shared : Shared}
    (hs : Source w work d₀.worker barrier taken acks none)
    (hg : Delivery.Goes d₀ barrier taken r q) (hst : d₀.shared.started = started)
    (hsp : Delivery.Spares ⟨w, shared⟩ (w.landed work) r) (hst' : shared.started = started)
    (hreset : w.phase ≠ .idle → .barrier .newTransaction ∉ w.agenda)
    (hland : ∀ x ∈ w.landed work, w.Registered x.partition) :
    Hauls b₀ loads (acked ++ w.landed work) r.1.worker (asking q) r.1.shared.started ∧
      ∀ p, r.1.worker.Claims (asking q) p ↔ w.Claims work p := by
  have hclaims := claims_of_source hs hreset
  have hregistered : ∀ p, r.1.worker.Registered p ↔ w.Claims work p := fun p =>
    (hs.registered hg.next p).trans (hclaims p).2.symm
  have hasking : ∀ answer, asking q ≠ .replied answer := fun answer => by cases q <;> simp [asking]
  have hconcerns : ∀ p, w.Concerns p → r.1.worker.Registered p := fun p hp =>
    (hregistered p).mpr ((hclaims p).1.mp hp)
  refine ⟨⟨?_, hsp.routed h.bound, fun e => hasking _, fun p => ?_, fun p => ?_, ?_, fun p hk => ?_,
    fun p hc => ?_, ?_⟩, fun p => ?_⟩
  · exact hg.next.alive
  · rw [h.lanes, List.map_append, lane_append, List.append_assoc, hsp.lanes]
  · rw [List.filter_append, h.places, h.landed, List.map_append, lane_append, receipts_append]
  · have hnone : r.1.worker.landed (asking q) = [] := by cases q <;> rfl
    rw [hnone]
    exact fun _ => rfl
  · by_cases ha : lane p (acked.map Receipt.freight) = []
    · rw [List.map_append, lane_append, ha, List.nil_append] at hk
      obtain ⟨l, hl⟩ := List.exists_mem_of_ne_nil _ hk
      obtain ⟨x, hx, hxp⟩ := List.mem_map.mp (mem_lane.mp hl)
      have hp : x.partition = p := congrArg Prod.fst hxp
      exact hconcerns p (Or.inl (hp ▸ hland x hx))
    · exact hconcerns p (Or.inl (h.known p ha))
  · rcases hc with hr | hfresh
    · exact h.awaited p ((hclaims p).1.mpr ((hregistered p).mp hr))
    · -- what is enrolled now is enrolled for a load
      have hl := hsp.lanes p
      rw [h.lanes, ← hl, Worker.cargo, lane_append]
      simp [hsp.fresh p hfresh]
  · constructor
    · intro ht
      rcases hsp.started ht with ht | hne
      · obtain ⟨p, hp⟩ := h.started.mp (hst'.symm.trans ht)
        exact ⟨p, Or.inl (hconcerns p hp)⟩
      · obtain ⟨p, hp⟩ := List.exists_mem_of_ne_nil _ hne
        exact ⟨p, Or.inr hp⟩
    · rintro ⟨p, hr | hfresh⟩
      · exact hg.started (hst.trans (h.started.mpr
          ⟨p, (hclaims p).1.mpr ((hregistered p).mp hr)⟩))
      · obtain ⟨x, id, ps, hq⟩ := hg.next.enrolls hfresh
        exact hg.enrolls x id ps hq
  · rw [Worker.Claims, hregistered, or_iff_left fun h => hasking _ h.2]

/-! ### The broker answers -/

/-- The line has an answer, and what has landed continues the lanes. -/
theorem reply (h : Hauls b₀ loads acked w work started) {reply : Reply}
    (hl : ∀ p, (w.landed (.replied (.ok reply))).filter (·.partition = p) =
      receipts p (b₀.next p + (lane p (acked.map Receipt.freight)).length)
        (lane p ((w.landed (.replied (.ok reply))).map Receipt.freight))) :
    Hauls b₀ loads acked w (.replied (.ok reply)) started :=
  ⟨h.alive, h.bound, nofun, h.lanes, h.places, hl, h.known, h.awaited, h.started⟩

/-- A partition with a lane can be taken. -/
theorem takes_of_lane {ours : String → Prop} (ht : ∀ f ∈ loads, b₀.Takes ours f)
    {p : TopicPartition} {l : Load} (hl : l ∈ lane p loads) : b₀.Takes ours (p, l) :=
  ht _ (mem_lane.mp hl)

variable {b : Broker} {ours : String → Prop} {held : TopicPartition → Prop}

/-- **The broker enrolls what the worker asks for.** -/
theorem reach_enroll (h : Hauls b₀ loads acked w work started)
    (ht : ∀ f ∈ loads, b₀.Takes ours f) {fresh : List TopicPartition}
    {batches : List (Batch Load)} {barrier : Option Barrier}
    (hp : w.phase = .enrolling fresh batches barrier) {q : Request} (hsent : work = .sent q)
    (hb : b₀.Carries ours w.txid w.identity (fun p => w.Claims work p ∨ held p)
      ((acked ++ w.landed work).map Receipt.freight) b) (now : Span) :
    ∃ reply, (b.handle now (.enroll w.txid w.identity fresh)).2 = .ok reply ∧
      Hauls b₀ loads acked w (.replied (.ok reply)) started ∧
      b₀.Carries ours w.txid w.identity (fun p => w.Claims (.replied (.ok reply)) p ∨ held p)
        ((acked ++ w.landed (.replied (.ok reply))).map Receipt.freight)
        (b.act (.request now (.enroll w.txid w.identity fresh))) := by
  have hfresh : w.phase.fresh = fresh := by rw [hp]; rfl
  have hlanded : ∀ line, w.landed line = [] := landed_of_phase (by simp [hp])
  have hthere : ∀ p ∈ fresh, ours p.topic ∧ ∃ log, b₀.log? p = some log := fun p hpf => by
    obtain ⟨l, hl⟩ := List.exists_mem_of_ne_nil _ (h.awaited p (Or.inr (hfresh ▸ hpf)))
    have htakes := takes_of_lane ht hl
    exact ⟨htakes.ours, htakes.there⟩
  obtain ⟨hok, hcarries⟩ := hb.enroll hthere now
  refine ⟨.enrolled, hok, h.reply fun p => ?_, ?_⟩
  · rw [hlanded]
    rfl
  · rw [hlanded] at hcarries ⊢
    exact hcarries.congr (fun p => by simp [Worker.Claims, hfresh, hsent, or_right_comm]) fun _ => rfl

/-- **The broker appends the batch of the worker**, where its lane is. -/
theorem reach_append (h : Hauls b₀ loads acked w work started)
    (ht : ∀ f ∈ loads, b₀.Takes ours f) {batch : Batch Load} {rest : List (Batch Load)}
    {barrier : Option Barrier} (hp : w.phase = .appending batch rest barrier)
    (hr : w.Registered batch.partition) {q : Request} (hsent : work = .sent q)
    (hb : b₀.Carries ours w.txid w.identity (fun p => w.Claims work p ∨ held p)
      ((acked ++ w.landed work).map Receipt.freight) b) (now : Span) :
    ∃ reply, (b.handle now (.append w.txid w.identity batch.partition batch.records)).2 = .ok reply ∧
      Hauls b₀ loads acked w (.replied (.ok reply)) started ∧
      b₀.Carries ours w.txid w.identity (fun p => w.Claims (.replied (.ok reply)) p ∨ held p)
        ((acked ++ w.landed (.replied (.ok reply))).map Receipt.freight)
        (b.act (.request now (.append w.txid w.identity batch.partition batch.records))) := by
  have hnone : w.landed work = [] := by rw [hsent]; rfl
  rw [hnone, List.append_nil] at hb
  -- the batch is in the lane of its partition
  have hin : ∀ l ∈ batch.items, l ∈ lane batch.partition loads := fun l hl => by
    rw [h.lanes, Worker.cargo, hp, lane_append, Phase.loads, lane_append, lane_loads, if_pos rfl]
    simp [hl]
  obtain ⟨l, hl⟩ := List.exists_mem_of_ne_nil _ (h.awaited _ (Or.inl hr))
  have htakes := takes_of_lane ht hl
  obtain ⟨hok, hcarries⟩ := hb.append (Or.inl (Or.inl hr)) htakes.ours htakes.there
    (fun l hl => (takes_of_lane ht (hin l hl)).fits) now
  refine ⟨_, hok, h.reply fun p => ?_, ?_⟩
  · simp only [Worker.landed, hp, filter_receipts, lane_receipts]
    by_cases hpp : batch.partition = p
    · subst hpp
      simp
    · simp [hpp, receipts]
  · refine hcarries.congr (fun p => by simp [Worker.Claims, hsent]) fun p => ?_
    simp only [Worker.landed, hp, List.map_append, freight_receipts, Batch.loads]

end Hauls
end FencedLog
