/-
# What a session knows when it routes a record

A record comes from a call to send, and it is routed by what a broker has told
the session of its topic. So a record that is queued without a partition
because its partition is unknown had nowhere to go at a broker that was asked
(`Addressed`); and no record is queued as too large. What the worker has taken
has been sent (`Mailed`).

Key definitions: `Draft.Homeless`, `Addressed`, `Session.Informed`,
`Session.Traced`.
Key theorems: `Session.traced_step`, `Session.traced_run`.
-/
import Mathlib.Data.List.Induction
import FencedLog.Proofs.Delivery.Causes
import FencedLog.Proofs.Session.Turn

namespace FencedLog

/-! ### Addresses -/

/-- The broker has no log for the draft: not of the partition that it asks for,
or of any if it asks for none. -/
def Draft.Homeless (draft : Draft) (b : Broker) : Prop :=
  ∀ n, draft.partition = none ∨ draft.partition = some n → b.log? ⟨draft.topic, n⟩ = none

/-- A broker was asked for the partitions of the draft's topic, and after its
answer the draft had nowhere to go there. -/
def Strayed (es : List Event) (draft : Draft) : Prop :=
  ∃ (b : Broker) (now : Span), .answered (b.handle now (.listing draft.topic)).2 ∈ es ∧
    draft.Homeless (b.handle now (.listing draft.topic)).1

/-- What a draft may be queued with. -/
def Addressed (es : List Event) (draft : Draft) : Except DeliveryError TopicPartition → Prop
  | .ok target => target.topic = draft.topic
  | .error (.unknownPartition topic _) => topic = draft.topic ∧ Strayed es draft
  | .error (.recordTooLarge ..) => False
  | .error _ => True

/-- The record was sent, and routed. -/
def Posted (es : List Event) (p : Pending) : Prop :=
  ∃ draft present, .called (.send draft p.ticket present) ∈ es ∧
    p.record = draft.record present ∧ Addressed es draft p.target

/-- The load was sent, to a partition of the topic. -/
def Mailed (es : List Event) (f : Freight) : Prop :=
  ∃ draft present, .called (.send draft f.2.2 present) ∈ es ∧ f.2.1 = draft.record present ∧
    f.1.topic = draft.topic

theorem mailed_of_posted {es : List Event} : ∀ {ps : List Pending}, (∀ p ∈ ps, Posted es p) →
    ∀ f ∈ routed ps, Mailed es f
  | ⟨.ok q, record, ticket⟩ :: ps, h, f, hf => by
    rcases List.mem_cons.mp hf with rfl | hf
    · obtain ⟨draft, present, hm, hr, ht⟩ := h _ List.mem_cons_self
      exact ⟨draft, present, hm, hr, ht⟩
    · exact mailed_of_posted (fun p hp => h p (List.mem_cons_of_mem _ hp)) f hf
  | ⟨.error _, _, _⟩ :: ps, h, f, hf => by
    have hrest : f ∈ routed ps := hf
    exact mailed_of_posted (fun p hp => h p (List.mem_cons_of_mem _ hp)) f hrest

/-- All records of the worker have been sent. -/
structure Worker.Stocked (es : List Event) (w : Worker) : Prop where
  queue : ∀ p ∈ pendings w.queue, Posted es p
  loads : ∀ f ∈ w.phase.loads, Mailed es f

theorem Worker.Stocked.cargo {es : List Event} {w : Worker} (h : w.Stocked es) :
    ∀ f ∈ w.cargo, Mailed es f := fun f hf =>
  (List.mem_append.mp hf).elim (h.loads f) (mailed_of_posted h.queue f)

/-- What a broker answers of a topic. -/
def Told (es : List Event) (topic : String) (infos : List PartitionInfo) : Prop :=
  ∃ (b : Broker) (now : Span), .answered (.ok (.partitions infos)) ∈ es ∧
    (b.handle now (.listing topic)).2 = .ok (.partitions infos)

theorem addressed_route {es : List Event} {draft : Draft} {infos : List PartitionInfo}
    (h : Told es draft.topic infos) (s : Session) :
    Addressed es draft (s.route draft infos.length).2 := by
  obtain ⟨b, now, hm, ha⟩ := h
  have strays : (∀ n, draft.partition = none ∨ draft.partition = some n →
      ¬ (0 ≤ n ∧ n < infos.length)) → Strayed es draft := fun hno => by
    refine ⟨b, now, ha ▸ hm, fun n hn => ?_⟩
    cases hl : (b.handle now (.listing draft.topic)).1.log? ⟨draft.topic, n⟩ with
    | none => rfl
    | some log => exact absurd ((Broker.log?_of_listed ha rfl).mp ⟨log, hl⟩) (hno n hn)
  unfold Session.route
  split
  · rename_i hzero
    exact ⟨rfl, strays fun n _ => by omega⟩
  · split
    · rename_i p hp
      split
      · rename_i hout
        refine ⟨rfl, strays fun n hn => ?_⟩
        rw [hp] at hn
        obtain rfl : p = n := by simpa using hn
        omega
      · rfl
    · rfl
    · rfl

/-- It is waited neither for a listing nor for room for a record. -/
def Wait.Free : Wait → Prop
  | .routing .. | .room (.send _) _ => False
  | _ => True

namespace Session

/-- What the session knows of topics, and what it and its worker have of records,
goes back to these events. -/
structure Traced (es : List Event) (s : Session) : Prop where
  topics : ∀ topic infos, s.shared.topics.get? topic = some infos → Told es topic infos
  routing : ∀ draft ticket present, s.wait = .routing draft ticket present →
    .called (.send draft ticket present) ∈ es
  room : ∀ p next, s.wait = .room (.send p) next → Posted es p
  worker : ∀ w, s.worker = some w → w.Stocked es

variable {es : List Event} {s r : Session}

theorem Traced.free (h : s.Traced es) (ht : r.shared.topics = s.shared.topics)
    (hw : r.worker = s.worker) (hr : r.wait.Free) : r.Traced es where
  topics := ht ▸ h.topics
  routing := fun _ _ _ hwait => by
    rw [hwait] at hr
    exact hr.elim
  room := fun _ _ hwait => by
    rw [hwait] at hr
    exact hr.elim
  worker := hw ▸ h.worker

theorem traced_push (h : s.Traced es) {m : Message} (hm : ∀ p, m = .send p → Posted es p)
    (next : AfterPush) : (s.push m next).1.Traced es := by
  have unqueued : (s.unqueued m next).1.Traced es := by
    cases m <;> cases next <;> exact h.free rfl rfl trivial
  unfold push
  split
  · exact unqueued
  · rename_i w hw
    split
    · exact unqueued
    · split
      · have hq : ∀ p ∈ pendings (w.queue ++ [m]), Posted es p := by
          intro p hp
          rw [pendings_append, List.mem_append] at hp
          rcases hp with hp | hp
          · exact (h.worker w hw).queue p hp
          · cases m with
            | send q =>
              rw [List.mem_singleton.mp hp]
              exact hm q rfl
            | barrier b => cases hp
        cases next <;> exact ⟨h.topics, by simp [pushed, finished], by simp [pushed, finished],
          fun w' hw' => by cases hw'; exact ⟨hq, (h.worker w hw).loads⟩⟩
      · refine ⟨h.topics, by simp, fun p next' hwait => ?_, h.worker⟩
        cases hwait
        exact hm p rfl

theorem traced_barrier (h : s.Traced es) (b : Barrier) (next : AfterPush) :
    (s.push (.barrier b) next).1.Traced es :=
  traced_push h (by simp) next

theorem traced_route (h : s.Traced es) (draft : Draft) (count : Nat) :
    (s.route draft count).1.Traced es := by
  have forget : Traced es { s with shared := s.shared.forget draft.topic } := by
    refine ⟨fun topic infos ht => ?_, h.routing, h.room, h.worker⟩
    by_cases he : draft.topic = topic
    · subst he
      simp [Shared.forget] at ht
    · rw [Shared.forget, Table.get?_erase_of_ne _ he] at ht
      exact h.topics topic infos ht
  unfold route
  split
  · exact h
  · split
    · split
      · exact forget
      · exact h
    · exact h
    · exact ⟨h.topics, h.routing, h.room, h.worker⟩

theorem traced_enqueue (h : s.Traced es) {draft : Draft} {ticket : Ticket} {present : Int}
    {target : Except DeliveryError TopicPartition}
    (hm : .called (.send draft ticket present) ∈ es) (ht : Addressed es draft target) :
    (s.enqueue draft ticket present target).1.Traced es := by
  unfold enqueue
  apply traced_push
  · exact ⟨h.topics, h.routing, h.room, h.worker⟩
  · rintro p ⟨⟩
    exact ⟨draft, present, hm, rfl, ht⟩

/-- A record of a topic that the session has been told of is routed. -/
theorem traced_routed (h : s.Traced es) {draft : Draft} {ticket : Ticket} {present : Int}
    (hm : .called (.send draft ticket present) ∈ es) {infos : List PartitionInfo}
    (hi : Told es draft.topic infos) :
    ((s.route draft infos.length).1.enqueue draft ticket present
      (s.route draft infos.length).2).1.Traced es :=
  traced_enqueue (traced_route h draft infos.length) hm (addressed_route hi s)

theorem traced_askFinish (h : s.Traced es) (o : Outcome) (back : Lifecycle) :
    (s.askFinish o back).1.Traced es := by
  unfold askFinish
  cases s.identity <;> exact h.free rfl rfl trivial

theorem traced_finishFlushed (h : s.Traced es) (o : Outcome) :
    (s.finishFlushed o).1.Traced es := by
  unfold finishFlushed
  split
  · exact h.free rfl rfl trivial
  · exact h.free rfl rfl trivial
  · split
    · exact traced_askFinish h _ _
    · exact h.free rfl rfl trivial

theorem traced_flushed (h : s.Traced es) (next : AfterFlush) : (s.flushed next).1.Traced es := by
  cases next with
  | report => exact h.free rfl rfl trivial
  | finish o => exact traced_finishFlushed h o

theorem traced_askFlush (h : s.Traced es) (next : AfterFlush) : (s.askFlush next).1.Traced es := by
  unfold askFlush
  split
  · exact traced_flushed h next
  · rename_i w hw
    apply traced_barrier
    exact ⟨h.topics, h.routing, h.room, fun w' hw' => by
      cases hw'
      exact ⟨(h.worker w hw).queue, (h.worker w hw).loads⟩⟩

theorem traced_acquire (h : s.Traced es) (id : Identity) (inherited : Bool) :
    Traced es ((s.acquire id inherited).finished (.ok .done)).1 :=
  ⟨h.topics, by simp [finished], by simp [finished],
    fun w hw => by
      cases hw
      exact ⟨by simp [Delivery.start, pendings], by simp [Delivery.start, Phase.loads]⟩⟩

theorem traced_called (h : s.Traced es) {op : Operation} (hm : .called op ∈ es) :
    (s.called op).1.Traced es := by
  have resume : ∀ producer epoch, (s.resume producer epoch).1.Traced es := by
    intro producer epoch
    unfold Session.resume
    split
    · exact h.free rfl rfl trivial
    · exact traced_acquire h _ _
  have finish : ∀ name o, (s.finish name o).1.Traced es := by
    intro name o
    unfold Session.finish
    split
    · exact h.free rfl rfl trivial
    · exact h.free rfl rfl trivial
    · split
      · exact traced_askFinish h _ _
      · exact h.free rfl rfl trivial
    all_goals exact traced_askFlush h _
  cases op with
  | init =>
    simp only [called]
    split <;> exact h.free rfl rfl trivial
  | resume producer epoch =>
    simp only [called]
    split
    · exact resume producer epoch
    · exact h.free rfl rfl trivial
  | resumeFrom token =>
    simp only [called]
    split
    · exact h.free rfl rfl trivial
    · split
      · exact h.free rfl rfl trivial
      · exact resume token.producer token.epoch
  | begin =>
    simp only [called, begin]
    split
    · split
      · exact h.free rfl rfl trivial
      · apply traced_barrier
        exact ⟨h.topics, h.routing, h.room, h.worker⟩
    · exact h.free rfl rfl trivial
  | send draft ticket present =>
    simp only [called]
    split
    · unfold send
      split
      · rename_i infos hi
        exact traced_routed h hm (h.topics _ _ hi)
      · refine ⟨h.topics, fun draft' ticket' present' hwait => ?_, by simp [ask], h.worker⟩
        cases hwait
        exact hm
    · exact h.free rfl rfl trivial
  | flush =>
    simp only [called]
    split
    · exact h.free rfl rfl trivial
    · exact traced_askFlush h _
  | finish o => cases o <;> exact finish _ _
  | listing topic =>
    simp only [called]
    split <;> exact h.free rfl rfl trivial
  | close =>
    simp only [called, close]
    split
    · exact h.free rfl rfl trivial
    · split <;> exact h.free rfl rfl trivial

theorem traced_learn (h : s.Traced es) {topic : String} {infos : List PartitionInfo}
    (hi : Told es topic infos) : (s.learn topic infos).Traced es := by
  refine ⟨fun topic' infos' ht => ?_, h.routing, h.room, h.worker⟩
  by_cases he : topic = topic'
  · subst he
    rw [learn, Table.get?_put_self] at ht
    exact Option.some.inj ht ▸ hi
  · rw [learn, Table.get?_put_of_ne _ he] at ht
    exact h.topics topic' infos' ht

/-- What the session or its worker hears comes from a broker, or the request has
failed on the way. -/
def Hearkens (s : Session) : Event → Prop
  | .answered answer => ∀ q, s.stance.request? = some q → ∃ v : Service, v.answer q = answer
  | .delivered answer => ∀ w q, s.worker = some w → w.request? = some q →
    ∃ v : Service, v.answer q = answer
  | _ => True

theorem told_of_hearkens {topic : String} {infos : List PartitionInfo}
    (hm : .answered (.ok (.partitions infos)) ∈ es) (h : s.Hearkens (.answered (.ok (.partitions infos))))
    (hq : s.stance.request? = some (.listing topic)) : Told es topic infos := by
  obtain ⟨x, hx⟩ := h _ hq
  cases x with
  | handled b now => exact ⟨b, now, hm, hx⟩
  | failed e he => cases hx

/-- A draft whose topic is not listed has nowhere to go. -/
theorem addressed_refused {draft : Draft} {e : BrokerError} (hm : .answered (.error e) ∈ es)
    (h : s.Hearkens (.answered (.error e))) (hq : s.stance.request? = some (.listing draft.topic))
    (x : String) (id : Identity) : Addressed es draft (.error (.ofBroker x id e)) := by
  obtain ⟨service, ha⟩ := h _ hq
  cases e with
  | unknownPartition topic n =>
    cases service with
    | handled b now =>
      have hb : (b.handle now (.listing draft.topic)).2 = .error (.unknownPartition topic n) := ha
      obtain ⟨htopic, -⟩ := Broker.blames_refused hb
      exact ⟨htopic.symm, b, now, hb ▸ hm, fun k _ => Broker.log?_of_unlisted hb rfl⟩
    | failed e he =>
      rw [Except.error.inj ha] at he
      cases he
  | recordTooLarge size max =>
    obtain ⟨b, now, -, -, -, r, hr, -⟩ := Service.blames ha rfl
    cases hr
  | _ => trivial

theorem traced_answered (h : s.Traced es) {answer : Answer} (hm : .answered answer ∈ es)
    (hh : s.Hearkens (.answered answer)) : (s.answered answer).1.Traced es := by
  unfold answered
  split
  · exact traced_acquire h _ _
  · exact h.free rfl rfl trivial
  · rename_i topic infos hw
    have hq : s.stance.request? = some (.listing topic) := by simp [Stance.request?, stance, hw]
    exact (traced_learn h (told_of_hearkens hm hh hq)).free rfl rfl trivial
  · exact h.free rfl rfl trivial
  · rename_i draft ticket present infos hw
    have hq : s.stance.request? = some (.listing draft.topic) := by
      simp [Stance.request?, stance, hw]
    have hi := told_of_hearkens hm hh hq
    exact traced_routed (traced_learn h hi) (h.routing _ _ _ hw) hi
  · rename_i draft ticket present e hw
    have hq : s.stance.request? = some (.listing draft.topic) := by
      simp [Stance.request?, stance, hw]
    apply traced_enqueue h (h.routing _ _ _ hw)
    cases s.identity with
    | none => trivial
    | some id => exact addressed_refused hm hh hq _ id
  · exact h.free rfl rfl trivial
  · rename_i e _
    unfold finishRefused
    cases e <;> cases s.identity <;> exact h.free rfl rfl trivial
  · exact h

theorem traced_woken (h : s.Traced es) : s.woken.1.Traced es := by
  unfold woken
  split
  · rename_i m next hw
    apply traced_push h
    rintro p rfl
    exact h.room p next hw
  · split
    · split
      · exact traced_flushed h _
      · split
        · exact h.free rfl rfl trivial
        · exact h
    · exact h.free rfl rfl trivial
  · split
    · exact h.free rfl rfl trivial
    · exact h
  · exact h

/-! ### The worker -/

end Session

namespace Delivery

/-- The worker takes from its queue, and topics are forgotten. -/
structure Sheds (d r : Delivery) : Prop where
  topics : ∀ topic infos, r.shared.topics.get? topic = some infos →
    d.shared.topics.get? topic = some infos
  queue : pendings r.worker.queue ⊆ pendings d.worker.queue

variable {d : Delivery}

/-- What keeps the order of each lane adds nothing to the cargo. -/
theorem Keeps.subset {landed : List Receipt} {r : Delivery × List Deed} (h : d.Keeps landed r) :
    r.1.worker.cargo ⊆ d.worker.cargo := fun f hf =>
  mem_lane.mp ((h f.1).subset (List.mem_append_right _ (mem_lane.mpr hf)))

theorem cargo_drained (d : Delivery) : d.drained.worker.cargo = d.worker.cargo := by
  unfold drained
  split
  · rename_i hp hq
    simp [setPhase, Worker.cargo, hp, Phase.loads]
  · rfl

theorem sheds_round (d : Delivery) (visible : Nat) : d.Sheds (d.round visible).1 := by
  by_cases hi : d.worker.phase = .idle
  · obtain ⟨pending, rest, hq, h⟩ := passes_round hi visible
    refine ⟨fun topic infos ht => h.topics ▸ ht, ?_⟩
    rw [h.queue, hq]
    exact List.subset_append_right _ _
  · rw [round_of_busy hi]
    exact ⟨fun _ _ ht => ht, List.Subset.refl _⟩

theorem sheds_refused (d : Delivery) (e : BrokerError) : d.Sheds (d.refused e).1 := by
  have hw := (refused_spec d e).1
  have ht : (d.refused e).1.shared.topics = d.shared.topics ∨
      ∃ topic, (d.refused e).1.shared.topics = d.shared.topics.erase topic := by
    unfold refused
    simp only
    cases e <;> simp only [apply_ite Shared.topics, Shared.latch, Shared.forget, ite_self]
    case unknownPartition topic n => exact Or.inr ⟨topic, rfl⟩
    all_goals exact Or.inl trivial
  refine ⟨fun topic infos hi => ?_, by rw [hw]; exact List.Subset.refl _⟩
  rcases ht with ht | ⟨gone, ht⟩
  · rwa [ht] at hi
  · rw [ht, Table.get?_erase] at hi
    split at hi
    · cases hi
    · exact hi

theorem sheds_answered (d : Delivery) (answer : Answer) : d.Sheds (d.answered answer).1 := by
  have next : ∀ {d' : Delivery} (barrier : Option Barrier) (batches : List (Batch Load)),
      d.Sheds d' → d.Sheds (d'.appendNext barrier batches).1 := fun {d'} barrier batches h => by
    have hp := passes_appendNext barrier batches d'
    exact ⟨fun topic infos hi => h.topics topic infos (hp.topics ▸ hi), hp.queue ▸ h.queue⟩
  unfold answered
  split
  · exact next _ _ ⟨fun _ _ h => h, List.Subset.refl _⟩
  · rename_i ps batches barrier e _
    have h := sheds_refused d e
    refine ⟨fun topic infos hi => h.topics topic infos ?_, ?_⟩
    · rwa [reach_shared] at hi
    · rw [reach_worker, Worker.reached_queue]
      exact h.queue
  · exact next _ _ ⟨fun _ _ h => h, List.Subset.refl _⟩
  · rename_i batch rest barrier e _
    have h := sheds_refused d e
    exact next _ _ ⟨h.topics, h.queue⟩
  · exact ⟨fun _ _ h => h, List.Subset.refl _⟩

theorem sheds_kill (d : Delivery) : d.Sheds d.kill.1 := ⟨fun _ _ h => h, by simp [kill, pendings]⟩

theorem sheds_drained (d : Delivery) : d.Sheds d.drained := by
  unfold drained
  split <;> exact ⟨fun _ _ h => h, List.Subset.refl _⟩

end Delivery

namespace Session

variable {es : List Event} {s : Session}

theorem traced_deliver (h : s.Traced es) {f : Delivery → Delivery × List Deed}
    (hf : ∀ d : Delivery, d.Sheds (f d).1)
    (hc : ∀ d : Delivery, (f d).1.worker.cargo ⊆ d.worker.cargo) : (s.deliver f).1.Traced es := by
  unfold deliver
  cases hw : s.worker with
  | none => exact h
  | some w =>
    have hs := hf ⟨w, s.shared⟩
    have hstocked := h.worker w hw
    refine ⟨fun topic infos hi => h.topics topic infos (hs.topics topic infos hi), h.routing, h.room,
      fun w' hw' => ?_⟩
    cases hw'
    exact ⟨fun p hp => hstocked.queue p (hs.queue hp),
      fun f hf => hstocked.cargo f (hc ⟨w, s.shared⟩ (List.mem_append_left _ hf))⟩

theorem traced_kill (h : s.Traced es) : (s.deliver Delivery.kill).1.Traced es :=
  traced_deliver h Delivery.sheds_kill fun d => by
    simp [Delivery.kill, Worker.cargo, Phase.loads, pendings, routed]

/-- **An event adds nothing to what goes back to the events** but itself. -/
theorem traced_step (h : s.Traced es) {e : Event} (hm : e ∈ es)
    (hh : s.Hearkens e) : (s.step e).1.Traced es := by
  cases e with
  | called op =>
    rw [step]
    split
    · exact traced_called h hm
    · exact h
  | answered answer => exact traced_answered h hm hh
  | woken => exact traced_woken h
  | outwaited =>
    rw [step, outwaited]
    split
    · exact (traced_kill h).free rfl rfl trivial
    · exact h
  | abandoned => exact h.free rfl rfl trivial
  | round visible =>
    exact traced_deliver h (fun d => d.sheds_round visible) fun d => (d.keeps_round visible).subset
  | delivered answer =>
    exact traced_deliver h (fun d => d.sheds_answered answer) fun d =>
      (d.keeps_answered answer).subset
  | drained =>
    rw [step]
    split
    · exact h
    · exact traced_deliver h Delivery.sheds_drained fun d => by
        rw [Delivery.cargo_drained]
        exact List.Subset.refl _
  | died => exact traced_kill h

/-- Whatever the session and its worker hear in this run is how their requests were
served. -/
def Informed (s : Session) (es : List Event) : Prop :=
  ∀ fs e gs, es = fs ++ e :: gs → (s.run fs).1.Hearkens e

/-- What a session knows and queues goes back to the events of its run. -/
theorem traced_run {config : SessionConfig} {connected : Bool} (h : build config connected = .ok s)
    (hi : s.Informed es) : ∀ fs gs : List Event, es = fs ++ gs → (s.run fs).1.Traced es := by
  intro fs
  induction fs using List.reverseRecOn with
  | nil =>
    intro gs _
    obtain ⟨-, -, rfl⟩ := build_eq_ok_iff.mp h
    exact ⟨fun _ _ hi => by simp [run, Shared.start] at hi, by simp [run], by simp [run],
      by simp [run]⟩
  | append_singleton fs e ih =>
    intro gs hsplit
    have hfront : es = fs ++ e :: gs := by simp [hsplit]
    rw [run_append]
    exact traced_step (ih (e :: gs) hfront) (by simp [hfront]) (hi fs e gs hfront)

end Session
end FencedLog
