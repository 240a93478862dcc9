/-
# What a session routes, and what it knows of topics

A session routes a record when it is called to send one of a topic that it
knows, or when it is answered what it asked of the topic (`Session.routes`). Only
then are records put on hand, and is the rotation turned; and a topic is known
only from an answer that lists it (`Session.Learns`). Whatever else happens, there
are no more records on hand and no more topics known than before
(`Session.Course`).

Key definitions: `Routed`, `Session.routes`, `Session.itinerary`,
`Session.onHand`, `Session.Learns`, `Session.TakesUp`, `Session.Course`.
Key theorems: `Session.step_routes`, `Session.course_step`, `Session.known_step`,
`Session.onHand_step`, `Session.queues_routed`, `Session.unknown_run`, `Session.onHand_run`.
-/
import FencedLog.Proofs.Session.Addressed
import FencedLog.Proofs.Session.Doomed

namespace FencedLog

/-- A send that is routed. -/
structure Routed where
  draft : Draft
  ticket : Ticket
  present : Int
  /-- How many partitions the topic is taken to have, if that is known. -/
  count : Option Nat
  target : Except DeliveryError TopicPartition

/-- What is queued. -/
def Routed.pending (x : Routed) : Pending := ⟨x.target, x.draft.record x.present, x.ticket⟩

/-- The record that waits for room in the queue. -/
def Wait.record : Wait → List Pending
  | .room m _ => pendings [m]
  | _ => []

theorem Wait.Free.record {wait : Wait} (h : wait.Free) : wait.record = [] := by
  cases wait with
  | room m next =>
    cases m with
    | send p => exact h.elim
    | barrier b => rfl
  | _ => rfl

namespace Session

/-- The draft is routed among so many partitions. -/
def direct (s : Session) (draft : Draft) (ticket : Ticket) (present : Int) (count : Nat) :
    Session × Routed :=
  ((s.route draft count).1, ⟨draft, ticket, present, some count, (s.route draft count).2⟩)

/-- The draft cannot be routed, as its topic was not listed. -/
def unlisted (s : Session) (draft : Draft) (ticket : Ticket) (present : Int) (e : BrokerError) :
    Routed :=
  ⟨draft, ticket, present, none, .error (match s.identity with
    | some id => .ofBroker s.config.txid id e
    | none => .transport e)⟩

/-- What an event has the session queue, and the session about to do so. -/
def routes (s : Session) : Event → Option (Session × Routed)
  | .called (.send draft ticket present) =>
    match s.wait, s.lifecycle, s.shared.topics.get? draft.topic with
    | .nothing, .inTransaction, some infos => some (s.direct draft ticket present infos.length)
    | _, _, _ => none
  | .answered answer =>
    match s.wait, answer with
    | .routing draft ticket present, .ok (.partitions infos) =>
      some ((s.learn draft.topic infos).direct draft ticket present infos.length)
    | .routing draft ticket present, .error e => some (s, s.unlisted draft ticket present e)
    | _, _ => none
  | _ => none

/-- All that is routed, in order. -/
def itinerary (s : Session) : List Event → List Routed
  | [] => []
  | e :: es => ((s.routes e).map Prod.snd).toList ++ (s.step e).1.itinerary es

/-- The records that are queued or wait for room. -/
def onHand (s : Session) : List Pending :=
  s.worker.elim [] (fun w => pendings w.queue) ++ s.wait.record

/-- The session is told of the topic. -/
def Learns (s : Session) (e : Event) (topic : String) : Prop :=
  ∃ infos, e = .answered (.ok (.partitions infos)) ∧ (s.wait = .listing topic ∨
    ∃ draft ticket present, s.wait = .routing draft ticket present ∧ draft.topic = topic)

/-- Every listing that is awaited is of a topic that is not known. -/
def Wonders (s : Session) : Prop :=
  ∀ draft ticket present, s.wait = .routing draft ticket present →
    s.shared.topics.get? draft.topic = none

variable {s s₁ : Session} {r : Session × List Effect} {e : Event} {x : Routed}
  {new : List Pending}

theorem step_routes (h : s.routes e = some (s₁, x)) :
    s.step e = s₁.enqueue x.draft x.ticket x.present x.target := by
  unfold routes at h
  split at h
  · split at h
    · rename_i draft ticket present _ _ infos hw hl ht
      cases h
      simp only [step, hw, called, hl, ↓reduceIte, send, ht]
    · cases h
  · split at h
    · rename_i draft ticket present infos hw
      cases h
      simp only [step, answered, hw]
    · rename_i draft ticket present err hw
      cases h
      simp only [step, answered, hw]
      rfl
    · cases h
  · cases h

/-! ### Records that are taken up -/

/-- No send ends with an error, but that it is given up. -/
def Quiet (effects : List Effect) : Prop :=
  ∀ t err, (t, .error err) ∈ completions (deeds effects) → err = .abandoned

theorem quiet_of_nil {effects : List Effect} (h : completions (deeds effects) = []) :
    Quiet effects := fun _ _ hm => by
  rw [h] at hm
  cases hm

/-- Some records come on hand, and nothing is learned; a listing is asked for only
if the topic is not known. -/
structure TakesUp (s : Session) (new : List Pending) (r : Session × List Effect) :
    Prop where
  rotation : r.1.rotation = s.rotation
  topics : r.1.shared.topics = s.shared.topics
  hand : r.1.onHand ⊆ s.onHand ++ new
  wonders : s.Wonders → r.1.Wonders
  quiet : Quiet r.2

theorem TakesUp.refl (s : Session) : s.TakesUp [] (s, []) :=
  ⟨rfl, rfl, List.subset_append_left _ _, id, quiet_of_nil rfl⟩

theorem TakesUp.of_eq {s' : Session} (h : s'.TakesUp new r) (hr : s'.rotation = s.rotation)
    (ht : s'.shared.topics = s.shared.topics) (hh : s'.onHand = s.onHand)
    (hw : s'.wait = s.wait) : s.TakesUp new r where
  rotation := h.rotation.trans hr
  topics := h.topics.trans ht
  hand := hh ▸ h.hand
  wonders := fun hs => h.wonders fun draft ticket present hwait => by
    rw [ht]
    exact hs draft ticket present (hw ▸ hwait)
  quiet := h.quiet

theorem wonders_of_free (h : s.wait.Free) : s.Wonders := fun _ _ _ hwait => by
  rw [hwait] at h
  exact h.elim

theorem TakesUp.free (hr : r.1.rotation = s.rotation) (ht : r.1.shared.topics = s.shared.topics)
    (hw : r.1.worker = s.worker) (hf : r.1.wait.Free) (hq : completions (deeds r.2) = []) :
    s.TakesUp [] r where
  rotation := hr
  topics := ht
  hand := by
    unfold onHand
    rw [hw, hf.record, List.append_nil, List.append_nil]
    exact List.subset_append_left _ _
  wonders := fun _ => wonders_of_free hf
  quiet := quiet_of_nil hq

theorem wonders_push (s : Session) (m : Message) (next : AfterPush) :
    (s.push m next).1.Wonders := by
  rcases stance_push (rfl : s.stance = s.stance) with
    ⟨w, -, -, he⟩ | ⟨w, -, -, he⟩ | ⟨-, he⟩ <;> rw [he]
  · cases next <;> exact wonders_of_free trivial
  · exact fun _ _ _ hwait => nomatch hwait
  · cases m <;> cases next <;> exact wonders_of_free trivial

theorem quiet_push (s : Session) (m : Message) (next : AfterPush) : Quiet (s.push m next).2 := by
  rcases stance_push (rfl : s.stance = s.stance) with
    ⟨w, -, -, he⟩ | ⟨w, -, -, he⟩ | ⟨-, he⟩ <;> rw [he]
  · cases next <;> exact quiet_of_nil rfl
  · exact quiet_of_nil rfl
  · intro t err hm
    cases m <;> cases next <;> simp_all [unqueued, failed, finished, deeds, completions]

theorem takesUp_push (s : Session) (m : Message) (next : AfterPush) :
    s.TakesUp (pendings [m]) (s.push m next) := by
  have hwonders : s.Wonders → (s.push m next).1.Wonders := fun _ => wonders_push s m next
  have hquiet := quiet_push s m next
  rcases stance_push (rfl : s.stance = s.stance) with
    ⟨w, hw, -, he⟩ | ⟨w, hw, -, he⟩ | ⟨-, he⟩ <;> rw [he] at hwonders hquiet ⊢
  · have hhand : pendings (Stance.queue w m).queue ++ [] ⊆ s.onHand ++ pendings [m] := by
      rw [List.append_nil, Stance.queue, pendings_append, onHand, hw]
      simp
    cases next <;> exact ⟨rfl, rfl, hhand, hwonders, hquiet⟩
  · refine ⟨rfl, rfl, ?_, hwonders, hquiet⟩
    simp only [onHand, hw, Option.elim, Wait.record]
    simp
  · have hhand : s.worker.elim [] (fun w => pendings w.queue) ++ [] ⊆
        s.onHand ++ pendings [m] := by
      rw [List.append_nil, onHand, List.append_assoc]
      exact List.subset_append_left _ _
    cases m <;> cases next <;> exact ⟨rfl, rfl, hhand, hwonders, hquiet⟩

theorem takesUp_barrier (s : Session) (b : Barrier) (next : AfterPush) :
    s.TakesUp [] (s.push (.barrier b) next) :=
  takesUp_push s (.barrier b) next

theorem takesUp_conclude (s : Session) (o : Outcome) : s.TakesUp [] (s.conclude o) :=
  .free rfl rfl rfl trivial rfl

theorem takesUp_askFinish (s : Session) (o : Outcome) (back : Lifecycle) :
    s.TakesUp [] (s.askFinish o back) := by
  unfold askFinish
  cases s.identity <;> exact .free rfl rfl rfl trivial rfl

theorem takesUp_flushed (s : Session) (next : AfterFlush) : s.TakesUp [] (s.flushed next) := by
  cases next with
  | report => exact .free rfl rfl rfl trivial rfl
  | finish o =>
    simp only [flushed, finishFlushed]
    split
    · exact .free rfl rfl rfl trivial rfl
    · exact takesUp_conclude s _
    · split
      · exact takesUp_askFinish s _ _
      · exact takesUp_conclude s _

theorem takesUp_askFlush (s : Session) (next : AfterFlush) : s.TakesUp [] (s.askFlush next) := by
  unfold askFlush
  split
  · exact takesUp_flushed s next
  · rename_i w hw
    exact (takesUp_barrier _ _ _).of_eq rfl rfl (by simp only [onHand, hw, Option.elim]) rfl

theorem takesUp_resume (s : Session) (producer epoch : Int) :
    s.TakesUp [] (s.resume producer epoch) := by
  unfold resume
  split
  · exact .free rfl rfl rfl trivial rfl
  · exact ⟨rfl, rfl, List.nil_subset _, fun _ => wonders_of_free trivial, quiet_of_nil rfl⟩

/-- A call that routes nothing. -/
theorem takesUp_called {op : Operation} (hw : s.wait = .nothing)
    (hn : s.routes (.called op) = none) : s.TakesUp [] (s.called op) := by
  have finish : ∀ name o, s.TakesUp [] (s.finish name o) := by
    intro name o
    unfold Session.finish
    split
    · exact .free rfl rfl rfl trivial rfl
    · exact .free rfl rfl rfl trivial rfl
    · split
      · exact takesUp_askFinish s _ _
      · exact .free rfl rfl rfl trivial rfl
    all_goals exact takesUp_askFlush s _
  cases op with
  | init =>
    simp only [called]
    split <;> exact .free rfl rfl rfl trivial rfl
  | resume producer epoch =>
    simp only [called]
    split
    · exact takesUp_resume s producer epoch
    · exact .free rfl rfl rfl trivial rfl
  | resumeFrom token =>
    simp only [called]
    split
    · exact .free rfl rfl rfl trivial rfl
    · split
      · exact .free rfl rfl rfl trivial rfl
      · exact takesUp_resume s token.producer token.epoch
  | begin =>
    simp only [called, begin]
    split
    · split
      · exact .free rfl rfl rfl trivial rfl
      · exact (takesUp_barrier _ _ _).of_eq rfl rfl rfl rfl
    · exact .free rfl rfl rfl trivial rfl
  | send draft ticket present =>
    simp only [called]
    split
    · rename_i hl
      unfold send
      cases ht : s.shared.topics.get? draft.topic with
      | some infos =>
        simp only [routes, hw, hl, ht] at hn
        cases hn
      | none =>
        refine ⟨rfl, rfl, ?_, fun _ draft' ticket' present' hwait => ?_, quiet_of_nil rfl⟩
        · simp [onHand, ask, Wait.record]
        · cases hwait
          exact ht
    · exact .free rfl rfl rfl trivial rfl
  | flush =>
    simp only [called]
    split
    · exact .free rfl rfl rfl trivial rfl
    · exact takesUp_askFlush s _
  | finish o => cases o <;> exact finish _ _
  | listing topic =>
    simp only [called]
    split <;> exact .free rfl rfl rfl trivial rfl
  | close =>
    simp only [called, close]
    split
    · exact .free rfl rfl rfl trivial rfl
    · split <;> exact .free rfl rfl rfl trivial rfl

theorem takesUp_woken (s : Session) : s.TakesUp [] s.woken := by
  unfold woken
  split
  · rename_i m next hw
    have h := takesUp_push s m next
    refine ⟨h.rotation, h.topics, fun p hp => ?_, h.wonders, h.quiet⟩
    -- what waits for room is on hand
    rcases List.mem_append.mp (h.hand hp) with hp | hp
    · exact List.mem_append_left _ hp
    · rw [List.append_nil, onHand, hw]
      exact List.mem_append_right _ hp
  · split
    · split
      · exact takesUp_flushed s _
      · split
        · exact .free rfl rfl rfl trivial rfl
        · exact .refl s
    · exact .free rfl rfl rfl trivial rfl
  · split
    · exact .free rfl rfl rfl trivial rfl
    · exact .refl s
  · exact .refl s

/-! ### One event -/

/-- The worker takes from its queue, or topics are forgotten. -/
structure Slims (s r : Session) : Prop where
  rotation : r.rotation = s.rotation
  topics : ∀ topic infos, r.shared.topics.get? topic = some infos →
    s.shared.topics.get? topic = some infos
  hand : r.onHand ⊆ s.onHand
  wait : r.wait = s.wait ∨ r.wait = .nothing

theorem Slims.finished (h : s.Slims s₁) : s.Slims { s₁ with wait := .nothing } where
  rotation := h.rotation
  topics := h.topics
  hand := fun _ hp => h.hand (List.mem_append_left _ (by simpa [onHand, Wait.record] using hp))
  wait := Or.inr rfl

theorem slims_deliver {f : Delivery → Delivery × List Deed} (hf : ∀ d : Delivery, d.Sheds (f d).1) :
    s.Slims (s.deliver f).1 := by
  unfold deliver
  cases hw : s.worker with
  | none => exact ⟨rfl, fun _ _ ht => ht, List.Subset.refl _, Or.inl rfl⟩
  | some w =>
    have hs := hf ⟨w, s.shared⟩
    refine ⟨rfl, hs.topics, ?_, Or.inl rfl⟩
    simp only [onHand, hw, Option.elim]
    exact List.append_subset.mpr ⟨fun _ hp => List.mem_append_left _ (hs.queue hp),
      List.subset_append_right _ _⟩

/-- Nothing fails that a worker has when it is killed. -/
theorem quiet_kill (s : Session) (more : List Effect) (hm : completions (deeds more) = []) :
    Quiet ((s.deliver Delivery.kill).2 ++ more) := by
  refine quiet_of_nil ?_
  rw [deeds_append, completions_append, hm, List.append_nil]
  unfold deliver
  split
  · rfl
  · simp only [deeds_map, Delivery.kill]
    exact completions_dropped _

/-- What one event does to the records on hand and to the topics that are known. -/
inductive Course (s : Session) (e : Event) (r : Session × List Effect) : Prop
  /-- The session goes on. -/
  | onward (hn : s.routes e = none) (h : s.TakesUp [] r)
  /-- Its owner has asked for the partitions of a topic. -/
  | learned (topic : String) (infos : List PartitionInfo) (hn : s.routes e = none)
      (he : e = .answered (.ok (.partitions infos))) (hw : s.wait = .listing topic)
      (h : (s.learn topic infos).TakesUp [] r)
  /-- A record is routed. -/
  | routed (s₁ : Session) (x : Routed) (hx : s.routes e = some (s₁, x))
      (h : s₁.TakesUp [x.pending] r) (hr : r.1.Wonders)
  /-- The worker moves. -/
  | moved (hn : s.routes e = none) (h : s.Slims r.1)
      (hd : Quiet r.2 ∨ (∃ visible, e = .round visible) ∨ ∃ answer, e = .delivered answer)

theorem course_routed (h : s.routes e = some (s₁, x)) : s.Course e (s.step e) := by
  rw [step_routes h, enqueue]
  exact .routed s₁ x h ((takesUp_push _ (.send x.pending) .sent).of_eq rfl rfl rfl rfl)
    (wonders_push _ _ _)

theorem course_answered (hn : s.routes (.answered answer) = none) :
    s.Course (.answered answer) (s.answered answer) := by
  have onward {r : Session × List Effect} (h : s.TakesUp [] r) :
      s.Course (.answered answer) r := .onward hn h
  unfold answered
  split
  · exact onward ⟨rfl, rfl, List.nil_subset _, fun _ => wonders_of_free trivial, quiet_of_nil rfl⟩
  · exact onward (.free rfl rfl rfl trivial rfl)
  · rename_i topic infos hw
    exact .learned topic infos hn rfl hw (.free rfl rfl rfl trivial rfl)
  · exact onward (.free rfl rfl rfl trivial rfl)
  · rename_i hw
    simp only [routes, hw] at hn
    cases hn
  · rename_i hw
    simp only [routes, hw] at hn
    cases hn
  · exact onward (takesUp_conclude s _)
  · rename_i err _
    unfold finishRefused
    cases err <;> cases s.identity <;> exact onward (.free rfl rfl rfl trivial rfl)
  · exact onward (.refl s)

/-- **What one event does.** -/
theorem course_step (s : Session) (e : Event) : s.Course e (s.step e) := by
  cases hx : s.routes e with
  | some r => exact course_routed hx
  | none =>
    have same : s.Course e (s, []) := .onward hx (.refl s)
    cases e with
    | called op =>
      rw [step]
      split
      · rename_i hw
        exact .onward hx (takesUp_called hw hx)
      · exact same
    | answered answer => exact course_answered hx
    | woken => exact .onward hx (takesUp_woken s)
    | outwaited =>
      rw [step, outwaited]
      split
      · refine .moved hx (slims_deliver Delivery.sheds_kill).finished (Or.inl ?_)
        exact quiet_kill s [.disconnected, .returned (.ok .done)] rfl
      · exact same
    | abandoned => exact .onward hx (.free rfl rfl rfl trivial rfl)
    | round visible =>
      exact .moved hx (slims_deliver (·.sheds_round visible)) (Or.inr (Or.inl ⟨visible, rfl⟩))
    | delivered answer =>
      exact .moved hx (slims_deliver (·.sheds_answered answer)) (Or.inr (Or.inr ⟨answer, rfl⟩))
    | drained =>
      rw [step]
      split
      · exact same
      · refine .moved hx (slims_deliver Delivery.sheds_drained) (Or.inl (quiet_of_nil ?_))
        unfold deliver
        split <;> rfl
    | died =>
      have hq := quiet_kill s [] rfl
      rw [List.append_nil] at hq
      exact .moved hx (slims_deliver Delivery.sheds_kill) (Or.inl hq)

/-! ### What an event routes -/

/-- How a record comes to be routed. -/
inductive Routes (s : Session) (e : Event) : Session → Routed → Prop
  /-- The topic is known. -/
  | known (draft : Draft) (ticket : Ticket) (present : Int) (infos : List PartitionInfo)
      (he : e = .called (.send draft ticket present)) (hw : s.wait = .nothing)
      (ht : s.shared.topics.get? draft.topic = some infos) :
      Routes s e (s.direct draft ticket present infos.length).1
        (s.direct draft ticket present infos.length).2
  /-- The topic has been asked for. -/
  | told (draft : Draft) (ticket : Ticket) (present : Int) (infos : List PartitionInfo)
      (he : e = .answered (.ok (.partitions infos))) (hw : s.wait = .routing draft ticket present) :
      Routes s e ((s.learn draft.topic infos).direct draft ticket present infos.length).1
        ((s.learn draft.topic infos).direct draft ticket present infos.length).2
  /-- The topic has been asked for in vain. -/
  | refused (draft : Draft) (ticket : Ticket) (present : Int) (err : BrokerError)
      (he : e = .answered (.error err)) (hw : s.wait = .routing draft ticket present) :
      Routes s e s (s.unlisted draft ticket present err)

theorem routes_cases (h : s.routes e = some (s₁, x)) : s.Routes e s₁ x := by
  unfold routes at h
  split at h
  · split at h
    · rename_i draft ticket present _ _ _ infos hw _ ht
      cases h
      exact .known draft ticket present infos rfl hw ht
    · cases h
  · split at h
    · rename_i draft ticket present infos hw
      cases h
      exact .told draft ticket present infos rfl hw
    · rename_i draft ticket present err hw
      cases h
      exact .refused draft ticket present err rfl hw
    · cases h
  · cases h

variable {topic : String} {infos : List PartitionInfo}

/-- Routing makes no topic known. -/
theorem known_route {draft : Draft} {count : Nat}
    (h : (s.route draft count).1.shared.topics.get? topic = some infos) :
    s.shared.topics.get? topic = some infos := by
  rcases shared_route s draft count with hs | hs <;> rw [hs] at h
  · exact h
  · rw [Shared.forget, Table.get?_erase] at h
    split at h
    · cases h
    · exact h

theorem known_learn {asked : String} {told : List PartitionInfo}
    (h : (s.learn asked told).shared.topics.get? topic = some infos) :
    s.shared.topics.get? topic = some infos ∨ asked = topic := by
  by_cases he : asked = topic
  · exact Or.inr he
  · rw [learn, Table.get?_put_of_ne _ he] at h
    exact Or.inl h

/-- **A topic is known from before, or the session is told of it.** -/
theorem known_step (h : (s.step e).1.shared.topics.get? topic = some infos) :
    s.shared.topics.get? topic = some infos ∨ s.Learns e topic := by
  cases course_step s e with
  | onward _ hup =>
    rw [hup.topics] at h
    exact Or.inl h
  | learned asked told _ he hw hup =>
    rw [hup.topics] at h
    exact (known_learn h).imp_right fun ht => ⟨told, he, Or.inl (hw.trans (congrArg _ ht))⟩
  | routed s₁ x hx hup =>
    rw [hup.topics] at h
    cases routes_cases hx with
    | known draft ticket present infos' => exact Or.inl (known_route h)
    | told draft ticket present infos' he hw =>
      exact (known_learn (known_route h)).imp_right fun ht =>
        ⟨infos', he, Or.inr ⟨draft, ticket, present, hw, ht⟩⟩
    | refused => exact Or.inl h
  | moved _ hslim _ => exact Or.inl (hslim.topics topic infos h)

theorem onHand_congr (h : s₁.stance = s.stance) : s₁.onHand = s.onHand :=
  congrArg (fun v : Stance => v.worker.elim [] (fun w => pendings w.queue) ++ v.wait.record) h

/-- **A record is on hand from before, or is routed now.** -/
theorem onHand_step {p : Pending} (h : p ∈ (s.step e).1.onHand) :
    p ∈ s.onHand ∨ ∃ s₁ x, s.routes e = some (s₁, x) ∧ x.pending = p := by
  cases course_step s e with
  | onward _ hup => exact Or.inl (by simpa using hup.hand h)
  | learned asked told _ _ _ hup =>
    have hp : p ∈ s.onHand ++ [] := hup.hand h
    exact Or.inl (by simpa using hp)
  | routed s₁ x hx hup =>
    rcases List.mem_append.mp (hup.hand h) with hp | hp
    · left
      have hs : s₁.onHand = s.onHand := by
        cases routes_cases hx with
        | known draft ticket present infos' =>
          exact onHand_congr (stance_route s draft infos'.length)
        | told draft ticket present infos' =>
          exact onHand_congr (stance_route (s.learn draft.topic infos') draft infos'.length)
        | refused => rfl
      exact hs ▸ hp
    · exact Or.inr ⟨s₁, x, hx, (List.mem_singleton.mp hp).symm⟩
  | moved _ hslim _ => exact Or.inl (hslim.hand h)

/-- **An event queues what it routes**, and puts nothing else on hand. -/
theorem queues_routed (s : Session) (e : Event) : match s.routes e with
    | some (s₁, x) => s.step e = s₁.enqueue x.draft x.ticket x.present x.target
    | none => (s.step e).1.onHand ⊆ s.onHand := by
  split
  · rename_i hx
    exact step_routes hx
  · rename_i hn
    intro p hp
    rcases onHand_step hp with hp | ⟨s₁, x, hx, -⟩
    · exact hp
    · rw [hn] at hx
      cases hx

theorem wonders_step (h : s.Wonders) : (s.step e).1.Wonders := by
  cases course_step s e with
  | onward _ hup => exact hup.wonders h
  | learned asked told _ _ hw hup =>
    refine hup.wonders fun draft ticket present hwait => ?_
    rw [show (s.learn asked told).wait = _ from hw] at hwait
    cases hwait
  | routed _ _ _ _ hr => exact hr
  | moved _ hslim _ =>
    intro draft ticket present hwait
    rcases hslim.wait with hw | hw <;> rw [hw] at hwait
    · -- what was not known is not known now
      have hno := h draft ticket present hwait
      cases ht : (s.step e).1.shared.topics.get? draft.topic with
      | none => rfl
      | some infos =>
        rw [hslim.topics _ _ ht] at hno
        cases hno
    · cases hwait

/-! ### Runs -/

/-- A topic that is not known is not known later, unless the session is told of it. -/
theorem unknown_run : ∀ (es : List Event) {s : Session}, s.shared.topics.get? topic = none →
    (∀ fs e gs, es = fs ++ e :: gs → ¬ (s.run fs).1.Learns e topic) →
      (s.run es).1.shared.topics.get? topic = none
  | [], _, h, _ => h
  | e :: es, s, h, hno => by
    refine unknown_run es ?_ fun fs e' gs he => hno (e :: fs) e' gs (he ▸ rfl)
    cases ht : (s.step e).1.shared.topics.get? topic with
    | none => exact ht
    | some infos =>
      rcases known_step ht with hknown | hl
      · rw [h] at hknown
        cases hknown
      · exact absurd hl (hno [] e es rfl)

/-- A record that is on hand has been routed. -/
theorem onHand_run (es : List Event) (h : s.onHand = []) {p : Pending}
    (hp : p ∈ (s.run es).1.onHand) : ∃ fs e gs s₁ x, es = fs ++ e :: gs ∧
      (s.run fs).1.routes e = some (s₁, x) ∧ x.pending = p := by
  induction es using List.reverseRecOn with
  | nil =>
    rw [show (s.run []).1.onHand = [] from h] at hp
    cases hp
  | append_singleton es e ih =>
    rw [run_append] at hp
    rcases onHand_step hp with hp | ⟨s₁, x, hx, hxp⟩
    · obtain ⟨fs, e', gs, s₁, x, rfl, hx⟩ := ih hp
      exact ⟨fs, e', gs ++ [e], s₁, x, by simp, hx⟩
    · exact ⟨es, e, [], s₁, x, rfl, hx, hxp⟩

end Session
end FencedLog
