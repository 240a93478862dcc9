/-
# What the flag says of a transaction

Session and worker share a flag that says whether the broker may know of the
transaction. The worker raises it when it asks to enroll partitions, and the
session lowers it when a transaction is over. A session that is ready, or was
when it asked to end an inherited transaction, has lowered it, and its worker
rests (`Session.Lowered`). So the flag is up exactly when the worker has asked
to enroll something since the session last began or finished a transaction
(`Session.Enlisted`).

What the worker has enrolled, and what it asks for, is told in
`FencedLog.Proofs.Delivery.Register`.

Key definitions: `Session.Bounds`, `Session.Enlisted`, `Session.Marks`,
`Session.Lowered`.
Key theorems: `Session.enlisted_concat`, `Session.started_step`,
`Session.started_iff`, `Session.enrolls_first`.
-/
import Mathlib.Data.List.Induction
import FencedLog.Proofs.Delivery.Register
import FencedLog.Proofs.Session.Doomed
import FencedLog.Proofs.Session.Standing

namespace FencedLog

theorem not_enlists_nil : ¬ Enlists (deeds []) := Delivery.not_enlists_of_nil rfl

/-- The session itself enrolls nothing. -/
theorem not_enlists_turn {v v' : Stance} {e : Event} {effects : List Effect} (h : v.Turn e v' effects) :
    ¬ Enlists (deeds effects) := by
  refine Delivery.not_enlists_of_nil ?_
  cases h <;> rfl

namespace Session

/-- How many transactions the session has finished. -/
def finishes (s : Session) : Nat := s.shared.counters.committed + s.shared.counters.aborted

/-- The event begins a transaction, or finishes one. -/
def Bounds (s : Session) (e : Event) : Prop :=
  (s.lifecycle = .ready ∧ (s.step e).1.lifecycle = .inTransaction) ∨ s.finishes < (s.step e).1.finishes

/-- Some event has the worker ask to enroll partitions, and none since then has
begun or finished a transaction. -/
def Enlisted (s : Session) (es : List Event) : Prop :=
  ∃ fs e gs, es = fs ++ e :: gs ∧ Enlists (deeds ((s.run fs).1.step e).2) ∧
    ∀ before e' after, gs = before ++ e' :: after → ¬ (s.run (fs ++ e :: before)).1.Bounds e'

/-- The last event enrolls, or does not begin or finish a transaction. -/
theorem enlisted_concat (s : Session) (es : List Event) (e : Event) : s.Enlisted (es ++ [e]) ↔
    Enlists (deeds ((s.run es).1.step e).2) ∨ (s.Enlisted es ∧ ¬ (s.run es).1.Bounds e) := by
  constructor
  · rintro ⟨fs, d, gs, hsplit, hd, hgs⟩
    rcases concat_eq_append_cons hsplit with ⟨rfl, rfl, -⟩ | ⟨rest, rfl, rfl⟩
    · exact Or.inl hd
    · refine Or.inr ⟨⟨fs, d, rest, rfl, hd, fun before e' after h => ?_⟩, hgs rest e [] rfl⟩
      exact hgs before e' (after ++ [e]) (by simp [h])
  · rintro (h | ⟨⟨fs, d, gs, rfl, hd, hgs⟩, hb⟩)
    · exact ⟨es, e, [], rfl, h, by simp⟩
    · refine ⟨fs, d, gs ++ [e], by simp, hd, fun before e' after h => ?_⟩
      rcases concat_eq_append_cons h with ⟨rfl, rfl, -⟩ | ⟨rest, hgs', -⟩
      · exact hb
      · exact hgs before e' rest hgs'

variable {s r : Session} {e : Event} {es : List Event} {call : Option Call}

/-! ### What the session does to the flag -/

/-- The flag is the same, and so is the count of transactions. -/
def SameMarks (s r : Session) : Prop := r.finishes = s.finishes ∧ r.shared.started = s.shared.started

/-- What an event of the session does to the flag. -/
inductive Marks (s r : Session) : Prop
  | same (h : s.SameMarks r)
  /-- A transaction is to begin. -/
  | lowered (hl : s.lifecycle = .ready) (hn : r.finishes = s.finishes)
      (hs : r.shared.started = false)
  | finished (hn : r.finishes = s.finishes + 1) (hs : r.shared.started = false)

theorem sameMarks_push (s : Session) (m : Message) (next : AfterPush) : s.SameMarks (s.push m next).1 := by
  have unqueued : s.SameMarks (s.unqueued m next).1 := by
    cases m <;> cases next <;> exact ⟨rfl, rfl⟩
  unfold push
  split
  · exact unqueued
  · split
    · exact unqueued
    · split
      · cases next <;> exact ⟨rfl, rfl⟩
      · exact ⟨rfl, rfl⟩

theorem sameMarks_route (s : Session) (draft : Draft) (count : Nat) : s.SameMarks (s.route draft count).1 := by
  unfold route
  split
  · exact ⟨rfl, rfl⟩
  · split
    · split <;> exact ⟨rfl, rfl⟩
    · exact ⟨rfl, rfl⟩
    · exact ⟨rfl, rfl⟩

theorem sameMarks_enqueue (s : Session) (draft : Draft) (ticket : Ticket) (present : Int)
    (target : Except DeliveryError TopicPartition) :
    s.SameMarks (s.enqueue draft ticket present target).1 := by
  unfold enqueue
  exact sameMarks_push _ _ _

theorem sameMarks_send (s : Session) (draft : Draft) (ticket : Ticket) (present : Int) (count : Nat) :
    s.SameMarks ((s.route draft count).1.enqueue draft ticket present (s.route draft count).2).1 := by
  obtain ⟨hn, hs⟩ := sameMarks_route s draft count
  obtain ⟨hn', hs'⟩ := sameMarks_enqueue (s.route draft count).1 draft ticket present
    (s.route draft count).2
  exact ⟨hn'.trans hn, hs'.trans hs⟩

theorem sameMarks_askFinish (s : Session) (o : Outcome) (back : Lifecycle) :
    s.SameMarks (s.askFinish o back).1 := by
  unfold askFinish
  cases s.identity <;> exact ⟨rfl, rfl⟩

theorem marks_conclude (s : Session) (o : Outcome) : s.Marks (s.conclude o).1 := by
  refine .finished ?_ rfl
  cases o <;> simp only [conclude, Session.finished, finishes] <;> omega

theorem marks_finishFlushed (s : Session) (o : Outcome) : s.Marks (s.finishFlushed o).1 := by
  unfold finishFlushed
  cases s.shared.fatal with
  | some e =>
    cases o with
    | commit => exact .same ⟨rfl, rfl⟩
    | abort => exact marks_conclude s .abort
  | none =>
    simp only
    split
    · exact .same (sameMarks_askFinish s o .inTransaction)
    · exact marks_conclude s o

theorem marks_flushed (s : Session) (next : AfterFlush) : s.Marks (s.flushed next).1 := by
  cases next with
  | report => exact .same ⟨rfl, rfl⟩
  | finish o => exact marks_finishFlushed s o

theorem marks_askFlush (s : Session) (next : AfterFlush) : s.Marks (s.askFlush next).1 := by
  unfold askFlush
  split
  · exact marks_flushed s next
  · rename_i w _
    exact .same (sameMarks_push { s with worker := some { w with flushed := false } } _ _)

theorem marks_begin (hl : s.lifecycle = .ready) : s.Marks s.begin.1 := by
  unfold begin
  split
  · exact .same ⟨rfl, rfl⟩
  · obtain ⟨hn, hs⟩ := sameMarks_push { s with shared := { s.shared with started := false } }
      (.barrier .newTransaction) .begun
    exact .lowered hl hn hs

theorem marks_finish (s : Session) (name : String) (o : Outcome) : s.Marks (s.finish name o).1 := by
  unfold finish
  split
  · exact .same ⟨rfl, rfl⟩
  · exact .same ⟨rfl, rfl⟩
  · split
    · exact .same (sameMarks_askFinish s o .ready)
    · exact .same ⟨rfl, rfl⟩
  all_goals exact marks_askFlush s _

theorem marks_called (s : Session) (op : Operation) : s.Marks (s.called op).1 := by
  have resume : ∀ producer epoch, s.Marks (s.resume producer epoch).1 := by
    intro producer epoch
    unfold Session.resume
    split <;> exact .same ⟨rfl, rfl⟩
  cases op with
  | init =>
    simp only [called]
    split <;> exact .same ⟨rfl, rfl⟩
  | resume producer epoch =>
    simp only [called]
    split
    · exact resume producer epoch
    · exact .same ⟨rfl, rfl⟩
  | resumeFrom token =>
    simp only [called]
    split
    · exact .same ⟨rfl, rfl⟩
    · split
      · exact .same ⟨rfl, rfl⟩
      · exact resume token.producer token.epoch
  | begin =>
    simp only [called]
    split
    · rename_i hl
      exact marks_begin hl
    · exact .same ⟨rfl, rfl⟩
  | send draft ticket present =>
    simp only [called]
    split
    · unfold send
      split
      · exact .same (sameMarks_send s draft ticket present _)
      · exact .same ⟨rfl, rfl⟩
    · exact .same ⟨rfl, rfl⟩
  | flush =>
    simp only [called]
    split
    · exact .same ⟨rfl, rfl⟩
    · exact marks_askFlush s _
  | finish o => cases o <;> exact marks_finish s _ _
  | listing topic =>
    simp only [called]
    split <;> exact .same ⟨rfl, rfl⟩
  | close =>
    simp only [called, close]
    split
    · exact .same ⟨rfl, rfl⟩
    · split <;> exact .same ⟨rfl, rfl⟩

theorem marks_answered (s : Session) (answer : Answer) : s.Marks (s.answered answer).1 := by
  unfold answered
  split
  · exact .same ⟨rfl, rfl⟩
  · exact .same ⟨rfl, rfl⟩
  · exact .same ⟨rfl, rfl⟩
  · exact .same ⟨rfl, rfl⟩
  · rename_i draft ticket present infos _
    exact .same (sameMarks_send (s.learn draft.topic infos) draft ticket present _)
  · exact .same (sameMarks_enqueue s _ _ _ _)
  · exact marks_conclude s _
  · rename_i e _
    unfold finishRefused
    cases e <;> cases s.identity <;> exact .same ⟨rfl, rfl⟩
  · exact .same ⟨rfl, rfl⟩

theorem marks_woken (s : Session) : s.Marks s.woken.1 := by
  unfold woken
  split
  · exact .same (sameMarks_push s _ _)
  · split
    · split
      · exact marks_flushed s _
      · split <;> exact .same ⟨rfl, rfl⟩
    · exact .same ⟨rfl, rfl⟩
  · split <;> exact .same ⟨rfl, rfl⟩
  · exact .same ⟨rfl, rfl⟩

theorem marks_own (he : OwnEvent e) : s.Marks (s.step e).1 := by
  rcases he with ⟨op, rfl⟩ | ⟨answer, rfl⟩ | rfl
  · rw [step]
    split
    · exact marks_called s op
    · exact .same ⟨rfl, rfl⟩
  · exact marks_answered s answer
  · exact marks_woken s

/-! ### Where the flag is down -/

/-- A session that is ready, or was when it asked to end an inherited
transaction, has the flag lowered. -/
def Lowered (s : Session) : Prop :=
  s.standing.lifecycle = .uninitialized ∨ s.standing.lifecycle = .ready → s.shared.started = false

/-- The owner has the session, which is in step with its call and has lowered
the flag where it should; or has given it up, and calls it no more. -/
inductive Minded (s : Session) (call : Option Call) (es : List Event) : Prop
  | held (hp : s.Poised call) (hl : s.Lowered) (ho : Owned es)
  | left (hw : s.wait = .nothing) (hn : ∀ op, .called op ∉ es)

theorem finishes_standing (s : Session) : s.finishes = s.standing.committed + s.standing.aborted := by
  rw [s.standing_eq]
  rfl

/-- Outside of a transaction the worker enrolls nothing. -/
theorem not_enlists_resting {own work : Line} (hc : Coupled s.stance own work call)
    (hl : s.lifecycle ≠ .inTransaction) (hl' : s.lifecycle ≠ .closed) {w : Worker}
    (hw : s.worker = some w) (visible : Nat) (answer : Answer) :
    ¬ Enlists (Delivery.round ⟨w, s.shared⟩ visible).2 ∧
      ¬ Enlists (Delivery.answered ⟨w, s.shared⟩ answer).2 := by
  obtain ⟨hphase, hqueue⟩ := (hc.manned w hw).shape.resting hl hl'
  constructor
  · rcases Delivery.goes_round ⟨w, s.shared⟩ visible with
      ⟨-, hstay⟩ | ⟨hp, pending, barrier, rest, q, hq, hgoes, hnil, -⟩
    · rw [hstay]
      exact Delivery.not_enlists_of_nil rfl
    · have hpendings := hqueue (by rw [show w.phase = .idle from hp]; simp)
      rw [show w.queue = _ from hq, pendings_append, pendings_append, pendings_sends] at hpendings
      have hnone : pending = [] := (List.append_eq_nil_iff.mp (List.append_eq_nil_iff.mp hpendings).1).1
      refine Delivery.not_enlists_of_nil ?_
      rw [hgoes.asks, (hnil hnone).1]
      rfl
  · rcases Daybook.delivered_unfit ⟨w, s.shared⟩ answer with hstay | ⟨q, hq, -⟩
    · rw [hstay]
      exact Delivery.not_enlists_of_nil rfl
    · have hnone : w.request? = none := by
        rcases hphase with hp | hp <;> simp only [Worker.request?, hp]
      rw [show w.request? = _ from hq] at hnone
      cases hnone

/-- A move of the worker. -/
theorem started_deliver {f : Delivery → Delivery × List Deed} (hf : ∀ d, Delivery.Flags d (f d)) :
    (s.deliver f).1.shared.started = true ↔
      s.shared.started = true ∨ Enlists (deeds (s.deliver f).2) := by
  unfold deliver
  cases hw : s.worker with
  | none => exact (or_iff_left not_enlists_nil).symm
  | some w =>
    simp only [deeds_map]
    exact (hf ⟨w, s.shared⟩).started

theorem flags_kill (d : Delivery) : d.Flags d.kill :=
  Delivery.flags_of_silent rfl (Delivery.not_enlists_of_nil (Scene.requests_dropped _))

theorem flags_drained (d : Delivery) : d.Flags (d.drained, []) := by
  refine Delivery.flags_of_silent ?_ (Delivery.not_enlists_of_nil rfl)
  unfold Delivery.drained
  split <;> rfl

theorem not_bounds (hl : (s.step e).1.lifecycle = s.lifecycle)
    (hn : (s.step e).1.finishes = s.finishes) : ¬ s.Bounds e := by
  rintro (⟨h, h'⟩ | h)
  · rw [hl, h] at h'
    cases h'
  · omega

/-- An event that does nothing leaves the flag as it is. -/
theorem started_stay (h : s.step e = (s, [])) : (s.step e).1.shared.started = true ↔
    Enlists (deeds (s.step e).2) ∨ (s.shared.started = true ∧ ¬ s.Bounds e) := by
  have hb : ¬ s.Bounds e := not_bounds (by rw [h]) (by rw [h])
  rw [h, or_iff_right not_enlists_nil, and_iff_left hb]

/-- An event of the worker neither begins nor finishes anything. -/
theorem started_worker {f : Delivery → Delivery × List Deed} (hf : ∀ d, Delivery.Flags d (f d))
    (hcount : ∀ d, (f d).1.shared.counters.committed = d.shared.counters.committed ∧
      (f d).1.shared.counters.aborted = d.shared.counters.aborted)
    (hl : (s.step e).1.lifecycle = (s.deliver f).1.lifecycle)
    (hshared : (s.step e).1.shared = (s.deliver f).1.shared)
    (hdeeds : deeds (s.step e).2 = deeds (s.deliver f).2) :
    (s.step e).1.shared.started = true ↔
      Enlists (deeds (s.step e).2) ∨ (s.shared.started = true ∧ ¬ s.Bounds e) := by
  have hl' : (s.deliver f).1.lifecycle = s.lifecycle := by
    unfold deliver
    split <;> rfl
  have hn : (s.step e).1.finishes = s.finishes := by
    rw [finishes, hshared, ← finishes, finishes_standing, (standing_deliver hcount).1,
      ← finishes_standing]
  rw [and_iff_left (not_bounds (hl.trans hl') hn), hshared, hdeeds, started_deliver hf, or_comm]

/-- A session that is ready has lowered the flag: it does not wait for the end of
a transaction. -/
theorem started_of_ready {own work : Line} (hc : Coupled s.stance own work call) (hlow : s.Lowered)
    (hl : s.lifecycle = .ready) : s.shared.started = false := by
  refine hlow (Or.inr ?_)
  rw [standing_of_ne fun o back hw => ?_]
  · exact hl
  · obtain ⟨op, lc, -, hrun⟩ := hc.running (by simp [stance, hw])
    rw [show s.stance.wait = _ from hw] at hrun
    cases hrun with
    | finishing _ _ hn =>
      rw [show s.stance.lifecycle = .ready from hl] at hn
      cases o <;> cases hn

/-- An event of the session lowers the flag when it begins or finishes a
transaction, and only then. -/
theorem started_own {b : Daybook} (hm : s.Minded b.call (e :: es)) (he : OwnEvent e) :
    (s.step e).1.shared.started = true ↔
      Enlists (deeds (s.step e).2) ∨ (s.shared.started = true ∧ ¬ s.Bounds e) := by
  cases hm with
  | left hw hn =>
    rcases he with ⟨op, rfl⟩ | ⟨answer, rfl⟩ | rfl
    · exact absurd List.mem_cons_self (hn op)
    · exact started_stay (by simp [step, answered, hw])
    · exact started_stay (by simp [step, woken, hw])
  | held hp hlow =>
    obtain ⟨own, work, hc⟩ := hp.coupled
    rcases turns_step hc he with ⟨hstep, -⟩ | ⟨op, lc, -, ht⟩
    · exact started_stay hstep
    · rw [or_iff_right (not_enlists_turn ht)]
      rcases marks_own he with ⟨hn, hs⟩ | ⟨hl, hn, hs⟩ | ⟨hn, hs⟩
      · rw [hs]
        refine ⟨fun hst => ⟨hst, ?_⟩, And.left⟩
        rintro (⟨hl, -⟩ | hlt)
        · rw [started_of_ready hc hlow hl] at hst
          cases hst
        · omega
      · simp [hs, started_of_ready hc hlow hl]
      · refine iff_of_false (by simp [hs]) fun h => h.2 (Or.inr ?_)
        omega

/-- **What an event does to the flag.** It raises it with an enrollment, and
lowers it when it begins or finishes a transaction. -/
theorem started_step {b : Daybook} (hm : s.Minded b.call (e :: es)) :
    (s.step e).1.shared.started = true ↔
      Enlists (deeds (s.step e).2) ∨ (s.shared.started = true ∧ ¬ s.Bounds e) := by
  cases e with
  | called op => exact started_own hm (Or.inl ⟨op, rfl⟩)
  | answered answer => exact started_own hm (Or.inr (Or.inl ⟨answer, rfl⟩))
  | woken => exact started_own hm (Or.inr (Or.inr rfl))
  | abandoned =>
    rw [and_iff_left (not_bounds rfl rfl)]
    exact (or_iff_right not_enlists_nil).symm
  | outwaited =>
    by_cases hw : s.wait = .drain
    · refine started_worker flags_kill (fun _ => ⟨rfl, rfl⟩) ?_ ?_ ?_ <;>
        simp [step, outwaited, hw, Session.finished, deeds_append]
      rfl
    · refine started_stay ?_
      rw [step, outwaited]
      split
      · rename_i hdrain
        exact absurd hdrain hw
      · rfl
  | round visible =>
    refine started_worker (fun d => Delivery.flags_round d visible) (fun d => ?_) rfl rfl rfl
    obtain ⟨gone, h⟩ := Delivery.advances_round d visible
    exact counters_advances h
  | delivered answer =>
    refine started_worker (fun d => Delivery.flags_answered d answer) (fun d => ?_) rfl rfl rfl
    obtain ⟨gone, h⟩ := Delivery.advances_answered d answer
    exact counters_advances h
  | died => exact started_worker flags_kill (fun _ => ⟨rfl, rfl⟩) rfl rfl rfl
  | drained =>
    by_cases ha : s.attached = true
    · exact started_stay (by simp only [step, ha, ↓reduceIte])
    · have hstep : s.step .drained = s.deliver fun d => (d.drained, []) := if_neg ha
      refine started_worker flags_drained (fun d => ?_) (by rw [hstep]) (by rw [hstep])
        (by rw [hstep])
      simp only [Delivery.drained]
      split <;> exact ⟨rfl, rfl⟩

/-- A session that stands ready, or has no identity yet, is in no transaction. -/
theorem outside_of_standing {own work : Line} (hc : Coupled s.stance own work call)
    (h : s.standing.lifecycle = .uninitialized ∨ s.standing.lifecycle = .ready) :
    s.lifecycle ≠ .inTransaction ∧ s.lifecycle ≠ .closed := by
  by_cases hw : ∃ o back, s.wait = .finish o back
  · obtain ⟨o, back, hw⟩ := hw
    obtain ⟨op, lc, -, hrun⟩ := hc.running (by simp [stance, hw])
    rw [show s.stance.wait = _ from hw] at hrun
    cases hrun with
    | finishing _ _ hn =>
      rw [show s.lifecycle = _ from hn]
      cases o <;> simp [Outcome.ending]
  · rw [standing_of_ne fun o back hf => hw ⟨o, back, hf⟩] at h
    rcases h with h | h <;> rw [show s.lifecycle = _ from h] <;> simp

/-- Outside of a transaction no event enrolls anything. -/
theorem not_enlists_outside {own work : Line} {b : Daybook} (hc : Coupled s.stance own work b.call)
    (hl : s.lifecycle ≠ .inTransaction ∧ s.lifecycle ≠ .closed) : ¬ Enlists (deeds (s.step e).2) := by
  have own : OwnEvent e → ¬ Enlists (deeds (s.step e).2) := by
    intro he
    rcases turns_step hc he with ⟨hstep, -⟩ | ⟨op, lc, -, ht⟩
    · rw [hstep]
      exact not_enlists_nil
    · exact not_enlists_turn ht
  have deliver : ∀ f : Delivery → Delivery × List Deed,
      (∀ w, s.worker = some w → ¬ Enlists (f ⟨w, s.shared⟩).2) → ¬ Enlists (deeds (s.deliver f).2) := by
    intro f hf
    unfold Session.deliver
    cases hw : s.worker with
    | none => exact not_enlists_nil
    | some w =>
      simp only [deeds_map]
      exact hf w hw
  have kill : ∀ d : Delivery, ¬ Enlists d.kill.2 := fun d =>
    Delivery.not_enlists_of_nil (Scene.requests_dropped _)
  cases e with
  | called op => exact own (Or.inl ⟨op, rfl⟩)
  | answered answer => exact own (Or.inr (Or.inl ⟨answer, rfl⟩))
  | woken => exact own (Or.inr (Or.inr rfl))
  | abandoned => exact not_enlists_nil
  | round visible =>
    exact deliver _ fun w hw => (not_enlists_resting hc hl.1 hl.2 hw visible (.ok .enrolled)).1
  | delivered answer => exact deliver _ fun w hw => (not_enlists_resting hc hl.1 hl.2 hw 0 answer).2
  | died => exact deliver _ fun w _ => kill _
  | drained =>
    rw [step]
    split
    · exact not_enlists_nil
    · exact deliver _ fun _ _ => Delivery.not_enlists_of_nil rfl
  | outwaited =>
    rw [step, outwaited]
    split
    · have hquiet := deliver _ fun w _ => kill ⟨w, s.shared⟩
      have hdeeds : deeds ((s.deliver Delivery.kill).2 ++ [.disconnected, .returned (.ok .done)]) =
          deeds (s.deliver Delivery.kill).2 := by
        rw [deeds_append]
        exact List.append_nil _
      simp only [Session.finished]
      rw [hdeeds]
      exact hquiet
    · exact not_enlists_nil

/-- **An event keeps the flag lowered where it should be.** -/
theorem lowered_step {b : Daybook} (hp : s.Poised b.call) (hl : s.Lowered) (ho : Owned (e :: es))
    (hne : e ≠ .abandoned) : (s.step e).1.Lowered := by
  obtain ⟨own, work, hc⟩ := hp.coupled
  have hiff := started_step (.held hp hl ho)
  have hreturned : ¬ Enlists (deeds [.returned (.ok .done)]) := Delivery.not_enlists_of_nil rfl
  -- where the standing is the same, only the worker could have raised the flag
  have keeps : (s.step e).1.standing = s.standing → (s.step e).1.Lowered := by
    intro hst hlc
    rw [hst] at hlc
    rw [hl hlc, or_iff_right (not_enlists_outside hc (outside_of_standing hc hlc))] at hiff
    simpa using hiff
  rcases fares_step hc hp.inherits hne with ⟨op, -, hf⟩ | ⟨hst, -⟩
  · cases hf with
    | goesOn hst => exact keeps hst
    | fails _ hst => exact keeps hst
    | reports _ _ hst => exact keeps hst
    | acquires id hst _ he hun =>
      intro _
      rw [he, hl (Or.inl hun), or_iff_right hreturned] at hiff
      simpa using hiff
    | begins hst =>
      intro hlc
      rw [hst] at hlc
      simp at hlc
    | concludes o hst _ he =>
      intro _
      have hbounds : s.Bounds e := by
        right
        rw [finishes_standing, finishes_standing, hst]
        cases o <;> simp only [Standing.conclude] <;> omega
      rw [he, or_iff_right hreturned] at hiff
      simpa [hbounds] using hiff
    | closes attached hst =>
      intro hlc
      rw [hst] at hlc
      simp at hlc
  · exact keeps hst

theorem Minded.step {b : Daybook} (h : s.Minded b.call (e :: es)) :
    (s.step e).1.Minded (b.step s e).call es := by
  cases h with
  | held hp hl ho =>
    by_cases he : e = .abandoned
    · subst he
      exact .left rfl (ho [] es rfl)
    · exact .held (poised_step hp he) (lowered_step hp hl ho he) ho.tail
  | left hw hn =>
    refine .left (step_left hw fun op he => ?_) fun op hop => hn op (List.mem_cons_of_mem e hop)
    exact hn op (he ▸ List.mem_cons_self)

theorem Minded.run {fs : List Event} : ∀ (es : List Event) {s : Session} {b : Daybook},
    s.Minded b.call (es ++ fs) → (s.run es).1.Minded (b.run s es).call fs
  | [], _, _, h => h
  | e :: es, s, b, h => Minded.run es (s := (s.step e).1) (b := b.step s e) h.step

variable {config : SessionConfig} {connected : Bool}

theorem started_build (h : build config connected = .ok s) : s.shared.started = false := by
  obtain ⟨-, -, rfl⟩ := build_eq_ok_iff.mp h
  rfl

/-- **The flag is up when the worker has asked to enroll something since the
last transaction was begun or finished, and only then.** -/
theorem started_iff (h : build config connected = .ok s) (ho : Owned es) :
    (s.run es).1.shared.started = true ↔ s.Enlisted es := by
  induction es using List.reverseRecOn with
  | nil =>
    refine iff_of_false (by simp [run, started_build h]) ?_
    rintro ⟨fs, e, gs, hsplit, -⟩
    simp at hsplit
  | append_singleton es e ih =>
    have hminded : (s.run es).1.Minded (Daybook.empty.run s es).call [e] :=
      Minded.run es (.held (poised_build h) (fun _ => started_build h) ho)
    have hrun : (s.run (es ++ [e])).1 = ((s.run es).1.step e).1 := by
      rw [run_append]
      rfl
    rw [enlisted_concat, hrun, started_step hminded, ih ho.front]

/-- What the flag says in a run of a session. -/
structure Flagged (s : Session) (es : List Event) : Prop where
  /-- It is up as soon as the worker asks to enroll partitions. -/
  raised : ∀ fs e gs, es = fs ++ e :: gs → Enlists (deeds ((s.run fs).1.step e).2) →
    (s.run (fs ++ [e])).1.shared.started = true
  /-- It is up if and only if the worker has asked since the last transaction
  was begun or finished. -/
  started : (s.run es).1.shared.started = true ↔ s.Enlisted es

/-- **A partition is enrolled once in a transaction, before anything is
appended to it, and after the flag is raised.** -/
theorem enrolls_first (h : build config connected = .ok s) (ho : Owned es) :
    s.Flagged es ∧ ∀ txid identity maxBatch shared moves,
      Registered ((Account.start txid identity maxBatch shared).run moves).delivery.worker.enrolled
        ((Account.start txid identity maxBatch shared).trace moves) := by
  refine ⟨⟨fun fs e gs hsplit he => ?_, started_iff h ho⟩, Account.registered_run⟩
  have hfront : Owned (fs ++ [e]) := by
    rw [hsplit, show fs ++ e :: gs = (fs ++ [e]) ++ gs by simp] at ho
    exact ho.front
  rw [started_iff h hfront, enlisted_concat]
  exact Or.inl he

/-- A partition is enrolled. The enrollment of another one fails, and is asked
for again in the next transaction. -/
def twoPartitions : List Account.Move :=
  let load (p : Int) (n : Nat) : Account.Move :=
    .post (.send ⟨.ok ⟨"T", p⟩, ⟨none, ⟨#[]⟩, 1⟩, ⟨n, .future⟩⟩)
  [load 0 0, .round 9, .answered (.ok .enrolled), .answered (.ok (.appended 0)), load 0 1, load 1 2,
    .post (.barrier .newTransaction), .round 9, .answered (.error .connectionClosed), load 1 3, .round 9]

theorem enrolls_first_twoPartitions : Session.build Scene.settings true = .ok (fresh Scene.settings) ∧
    Owned diesAfterFlush ∧ (fresh Scene.settings).Flagged diesAfterFlush ∧
    ((fresh Scene.settings).run (diesAfterFlush.take 9)).1.shared.started = true ∧
    Registered [] ((Account.start "x" ⟨1000, 0⟩ 8 .start).trace twoPartitions) ∧
    (Account.start "x" ⟨1000, 0⟩ 8 .start).trace twoPartitions =
      [.asked (.enroll "x" ⟨1000, 0⟩ [⟨"T", 0⟩]), .answered (.ok .enrolled),
        .asked (.append "x" ⟨1000, 0⟩ ⟨"T", 0⟩ [⟨none, ⟨#[]⟩, 1⟩]), .answered (.ok (.appended 0)),
        .asked (.enroll "x" ⟨1000, 0⟩ [⟨"T", 1⟩]), .answered (.error .connectionClosed), .begun,
        .asked (.enroll "x" ⟨1000, 0⟩ [⟨"T", 1⟩])] := by
  have ho : Owned diesAfterFlush := owned_of_notMem (by simp [diesAfterFlush])
  obtain ⟨hflagged, hregistered⟩ := enrolls_first build_settings ho
  exact ⟨build_settings, ho, hflagged, by decide +kernel,
    hregistered "x" ⟨1000, 0⟩ 8 .start twoPartitions, by decide +kernel⟩

end Session
end FencedLog
