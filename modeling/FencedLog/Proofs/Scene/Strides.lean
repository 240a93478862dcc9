/-
# The strides of a session

Every event of a session leaves it coupled with its lines, its worker and its
owner, and is one of the strides of its transaction.

Key theorem: `Scene.turned`.
-/
import FencedLog.Proofs.Scene.Coupled

namespace FencedLog

open Stance

variable {v v' : Stance} {call' : Option Call}

/-! ### Ends that are none -/

theorem not_ended_waiting {op : Operation} {lc : Lifecycle} (o : Outcome) :
    ¬ Ended (some ⟨op, lc, none⟩) o := by
  rintro ⟨r, h⟩
  simp at h

theorem not_ended_error {op : Operation} {lc : Lifecycle} {err : SessionError} (o : Outcome) :
    ¬ Ended (some ⟨op, lc, some (.error err)⟩) o := by
  rintro ⟨r, h⟩
  simp at h

theorem not_ended_of_ne {op : Operation} (hop : ∀ o, op ≠ .finish o) {lc : Lifecycle} {r : Report}
    (o : Outcome) : ¬ Ended (some ⟨op, lc, some (.ok r)⟩) o := by
  rintro ⟨r', h⟩
  simp only [Option.some.injEq, Call.mk.injEq] at h
  exact hop o h.1

theorem Stays.refl (v : Stance) : Stays v v :=
  ⟨rfl, rfl, rfl, fun w hw => ⟨w, hw, .refl w⟩⟩

/-- The session waits for something else than before. -/
theorem Stride.pause {e : Event} {chapter : Chapter} {wait : Wait} (he : ∀ o, ¬ Ended call' o)
    (hw : ∀ o back, wait ≠ .finish o back) (hf : ∀ next, wait ≠ .flush next) :
    Stride v e { v with wait := wait } chapter chapter call' :=
  .quiet ⟨rfl, rfl, rfl, (Stays.refl v).worker⟩ rfl he rfl hw (fun next _ hn => absurd hn (hf next))
    (Or.inl ⟨rfl, rfl⟩)

namespace Scene

variable {σ : Scene} {e : Event} {op : Operation} {lc : Lifecycle} {s' : Session}

/-- The call goes on. -/
theorem turned_waits (hp : Primed σ.session.stance σ.own σ.call e op lc) (hv : s'.stance = v')
    (hc : FencedLog.Coupled v' .idle σ.work (some ⟨op, lc, none⟩))
    (hs : Stride σ.session.stance e v' σ.chapter σ.chapter (some ⟨op, lc, none⟩)) :
    σ.Turned e s' ([].foldl feel { σ with session := s' }) := by
  obtain ⟨chronicle, s, own, work, call, chapter⟩ := σ
  obtain ⟨rfl, rfl, -⟩ := hp
  exact turned_of hv (by simp) hc hs

/-- The call goes on, and the broker is asked for something. -/
theorem turned_asks {q : Request} (hp : Primed σ.session.stance σ.own σ.call e op lc)
    (hv : s'.stance = v') (hc : FencedLog.Coupled v' (.sent q) σ.work (some ⟨op, lc, none⟩))
    (hs : Stride σ.session.stance e v' σ.chapter σ.chapter (some ⟨op, lc, none⟩)) :
    σ.Turned e s' ([.asked q].foldl feel { σ with session := s' }) := by
  obtain ⟨chronicle, s, own, work, call, chapter⟩ := σ
  obtain ⟨rfl, rfl, -⟩ := hp
  exact turned_of hv (by simp) hc hs

/-- The call fails. -/
theorem turned_fails {err : SessionError} (hp : Primed σ.session.stance σ.own σ.call e op lc)
    (hv : s'.stance = v')
    (hc : FencedLog.Coupled v' .idle σ.work (some ⟨op, lc, some (.error err)⟩))
    (hs : Stride σ.session.stance e v' σ.chapter σ.chapter (some ⟨op, lc, some (.error err)⟩)) :
    σ.Turned e s' ([.returned (.error err)].foldl feel { σ with session := s' }) := by
  obtain ⟨chronicle, s, own, work, call, chapter⟩ := σ
  obtain ⟨rfl, rfl, -⟩ := hp
  simp only [List.foldl, feel]
  rw [returned_error rfl]
  exact turned_of hv (by simp) hc hs

/-- The call succeeds, and neither accepts a send nor begins a transaction. -/
theorem turned_succeeds {r : Report} (hp : Primed σ.session.stance σ.own σ.call e op lc)
    (hsend : ∀ draft ticket present, op ≠ .send draft ticket present) (hbegin : op ≠ .begin)
    (hv : s'.stance = v') (hc : FencedLog.Coupled v' .idle σ.work (some ⟨op, lc, some (.ok r)⟩))
    (hs : Stride σ.session.stance e v' σ.chapter σ.chapter (some ⟨op, lc, some (.ok r)⟩)) :
    σ.Turned e s' ([.returned (.ok r)].foldl feel { σ with session := s' }) := by
  obtain ⟨chronicle, s, own, work, call, chapter⟩ := σ
  obtain ⟨rfl, rfl, -⟩ := hp
  simp only [List.foldl, feel]
  rw [returned_ok rfl hsend hbegin]
  exact turned_of hv (by simp) hc hs

/-- An identity is taken. -/
theorem turned_acquired (hg : Grounded σ.session.stance σ.work)
    (hp : Primed σ.session.stance σ.own σ.call e op lc) {id : Identity} {inherited : Bool}
    (h : (σ.session.stance.wait = .identity ∧ e = .answered (.ok (.identity id)) ∧
        inherited = false) ∨
      (σ.session.stance.wait = .nothing ∧ σ.session.stance.lifecycle = .uninitialized ∧
        inherited = true ∧ ∃ op, e = .called op ∧ op.resumed? = some id))
    (hv : s'.stance = { σ.session.stance with
      lifecycle := .ready, identity := some id, inherited := inherited, wait := .nothing
      worker := some ⟨σ.session.stance.config.txid, id, σ.session.stance.config.maxBatch, [], [],
        .idle, false⟩ }) :
    σ.Turned e s' ([.returned (.ok .done)].foldl feel { σ with session := s' }) := by
  have hl : σ.session.stance.lifecycle = .uninitialized := by
    rcases h with ⟨hw, -⟩ | ⟨-, hl, -⟩
    · have hrun := hp.running (by simp [hw])
      rw [hw] at hrun
      cases hrun with
      | identity hn => exact hn
    · exact hl
  have hi : (e = .answered (.ok (.identity id)) ∧ inherited = false) ∨
      (inherited = true ∧ ∃ op, e = .called op ∧ op.resumed? = some id) :=
    h.imp (fun h => h.2) fun h => h.2.2
  have hop : (∀ draft ticket present, op ≠ .send draft ticket present) ∧ op ≠ .begin ∧
      ∀ o, op ≠ .finish o := by
    rcases h with ⟨hw, -⟩ | ⟨-, -, -, op', he, hr⟩
    · have hrun := hp.running (by simp [hw])
      rw [hw] at hrun
      cases hrun with
      | identity hn => simp
    · obtain ⟨rfl, -⟩ := hp.calls he
      cases op' <;> simp [Operation.resumed?] at hr ⊢
  have hidle := (hg.unmanned (hg.fresh hl)).2
  refine turned_succeeds hp hop.1 hop.2.1 hv ⟨?_, ?_, trivial, ?_, ?_, ?_⟩
    (.acquired id inherited hl hi rfl (not_ended_of_ne hop.2.2) rfl)
  · exact sane_of (by simp) (fun o h => by cases o <;> cases h) (fun h => absurd rfl h)
  · exact fun h => absurd rfl h
  · exact fun h => nomatch h
  · exact fun h => nomatch h
  · intro w hw
    obtain rfl := Option.some.inj hw
    refine ⟨rfl, rfl, ⟨fun h => (nomatch h), fun _ _ _ h => (nomatch h), fun _ _ _ h => nomatch h⟩,
      .start rfl rfl _, ?_⟩
    rw [hidle]
    trivial

/-- A send is accepted: its record is queued, or there is no worker to take it. -/
theorem turned_sent (hg : Grounded σ.session.stance σ.work)
    (hp : Primed σ.session.stance σ.own σ.call e op lc) {p : Pending}
    (h : σ.session.stance.Sends e p)
    (hv : s'.stance = v') (hv' : v' = { σ.session.stance with wait := .nothing } ∨
      ∃ w, σ.session.stance.worker = some w ∧ w.phase ≠ .stopped ∧ v' = { σ.session.stance with
        wait := .nothing, worker := some (queue w (.send p)) }) :
    σ.Turned e s' ([.returned (.ok .done)].foldl feel { σ with session := s' }) := by
  obtain ⟨chronicle, s, own, work, call, chapter⟩ := σ
  obtain ⟨sent, rfl, hm, hl, hnf, hne⟩ := hp.sends h
  obtain ⟨rfl, rfl, -⟩ := hp
  refine turned_of hv (by simp) ?_ (.sent sent p hm rfl (not_ended_of_ne (by simp)) hl hv')
  rcases hv' with rfl | ⟨w, hw, hph, rfl⟩
  · exact hg.settled ⟨fun next w hw => absurd hw (hnf next), hne⟩ _
  · refine hg.remanned rfl rfl (fun h => nomatch h) id (fun h => ?_)
      (fun o hl' => absurd hl' (not_ending hg.sane hne o)) (fun h => absurd rfl h) trivial ?_
    · rw [show s.stance.lifecycle = _ from hl] at h
      cases h
    · intro w' hw'
      obtain rfl := Option.some.inj hw'
      have hman := hg.manned w hw
      refine ⟨w, hw, rfl, rfl, rfl, hman.sound.queue hph _, ?_⟩
      have hsh := hman.shape
      simp only [hl] at hsh ⊢
      exact hsh.queue_send hnf hph p

/-- A transaction begins. -/
theorem turned_begun (hg : Grounded σ.session.stance σ.work)
    (hp : Primed σ.session.stance σ.own σ.call e op lc) {w : Worker} {started : Bool}
    (h : σ.session.stance.Begins e) (hw : σ.session.stance.worker = some w)
    (hph : w.phase ≠ .stopped)
    (hv : s'.stance = { σ.session.stance with
      lifecycle := .inTransaction, wait := .nothing, started := started
      worker := some (queue w (.barrier .newTransaction)) }) :
    σ.Turned e s' ([.returned (.ok .done)].foldl feel { σ with session := s' }) := by
  obtain ⟨chronicle, s, own, work, call, chapter⟩ := σ
  obtain ⟨rfl, hl, hnf, hne⟩ := hp.begins h
  obtain ⟨rfl, rfl, -⟩ := hp
  refine turned_of hv (by simp) ?_
    (.begun w started hw hl hph rfl (not_ended_of_ne (by simp)) rfl)
  refine hg.remanned rfl rfl (fun h => nomatch h) (fun _ => ?_) (fun h => nomatch h) (fun o h => ?_)
    (fun h => absurd rfl h) trivial fun w' hw' => ?_
  · rw [hl]
    rfl
  · cases o <;> cases h
  · obtain rfl := Option.some.inj hw'
    have hman := hg.manned w hw
    refine ⟨w, hw, rfl, rfl, rfl, hman.sound.queue hph _, ?_⟩
    have hsh := hman.shape
    rw [hl] at hsh
    exact hsh.queue_begin hnf hph

/-- A flush is asked for. -/
theorem turned_flushing (hg : Grounded σ.session.stance σ.work)
    (hp : Primed σ.session.stance σ.own σ.call e op lc) {w : Worker} {next : AfterFlush}
    {flushed : Bool} (h : σ.session.stance.Flushes e w next flushed)
    (hw : σ.session.stance.worker = some w) (hph : w.phase ≠ .stopped)
    (hv : s'.stance = { σ.session.stance with
      wait := .flush next
      worker := some (queue { w with flushed := flushed } (.barrier .flush)) }) :
    σ.Turned e s' ([].foldl feel { σ with session := s' }) := by
  have hm := hg.manned w hw
  obtain ⟨rfl, hfol, hnf, hne⟩ := hp.flushes h fun next hn => hm.shape.armed _ hn
  refine turned_waits hp hv (hg.remanned rfl rfl (fun h => nomatch h) id (fun h => ?_)
      (fun o hl' => absurd hl' (not_ending hg.sane hne o)) (fun _ => ⟨_, _, rfl, .flushing next op hfol⟩)
      trivial ?_)
    (.quiet ⟨rfl, rfl, rfl, ?_⟩ rfl not_ended_waiting rfl (by simp) ?_ (Or.inl ⟨rfl, rfl⟩))
  · rw [hg.fresh h] at hw
    cases hw
  · intro w' hw'
    obtain rfl := Option.some.inj hw'
    exact ⟨w, hw, rfl, rfl, rfl, (hm.sound.flush false).queue hph _, hm.shape.queue_flush hnf hph next⟩
  · intro w' hw'
    obtain rfl := Option.some.inj hw'
    exact ⟨w, hw, _, false, Or.inr rfl, rfl⟩
  · intro _ w' _ hw' hf
    obtain rfl := Option.some.inj hw'
    cases hf

/-- A flush cannot be asked for: there is no room in the queue, or nobody reads
it. -/
theorem stride_unflushed (hg : Grounded σ.session.stance σ.work)
    (hp : Primed σ.session.stance σ.own σ.call e op lc) {w : Worker} {next : AfterFlush}
    {flushed : Bool} (h : σ.session.stance.Flushes e w next flushed)
    (hw : σ.session.stance.worker = some w) {wait : Wait} {call' : Option Call}
    (hwait : (wait = .room (.barrier .flush) (.flush next) ∧ call' = some ⟨op, lc, none⟩) ∨
      wait = .nothing)
    (hended : ∀ o, ¬ Ended call' o)
    (hv' : v' = { σ.session.stance with
      wait := wait, worker := some { w with flushed := flushed } }) :
    FencedLog.Coupled v' .idle σ.work call' ∧
      Stride σ.session.stance e v' σ.chapter σ.chapter call' := by
  subst hv'
  have hm := hg.manned w hw
  obtain ⟨rfl, hfol, hnf, hne⟩ := hp.flushes h fun next hn => hm.shape.armed _ hn
  have hnf' : ∀ next, wait ≠ .flush next := by
    rcases hwait with ⟨rfl, -⟩ | rfl <;> simp
  have hne' : ∀ o back, wait ≠ .finish o back := by
    rcases hwait with ⟨rfl, -⟩ | rfl <;> simp
  refine ⟨hg.remanned rfl rfl (fun h => nomatch h) id (fun h => ?_)
      (fun o hl' => absurd hl' (not_ending hg.sane hne o)) (fun hn => ?_) ?_ ?_,
    .quiet ⟨rfl, rfl, rfl, ?_⟩ rfl hended rfl hne' (fun next _ hn => absurd hn (hnf' next))
      (Or.inl ⟨rfl, rfl⟩)⟩
  · rw [hg.fresh h] at hw
    cases hw
  · rcases hwait with ⟨rfl, rfl⟩ | rfl
    · exact ⟨_, _, rfl, .awaiting next op hfol⟩
    · exact absurd rfl hn
  · rcases hwait with ⟨rfl, -⟩ | rfl <;> trivial
  · intro w' hw'
    obtain rfl := Option.some.inj hw'
    exact ⟨w, hw, rfl, rfl, rfl, hm.sound.flush false, hm.shape.forget hnf hnf'⟩
  · intro w' hw'
    obtain rfl := Option.some.inj hw'
    exact ⟨w, hw, [], false, Or.inl rfl, by simp⟩

/-- The broker is asked to end the transaction. -/
theorem turned_finishing (hg : Grounded σ.session.stance σ.work)
    (hp : Primed σ.session.stance σ.own σ.call e op lc) {o : Outcome} {back : Lifecycle}
    {id : Identity} (hid : σ.session.stance.identity = some id)
    (h : (σ.session.stance.wait = .nothing ∧ e = .called (.finish o) ∧
        σ.session.stance.lifecycle = .ready ∧ back = .ready ∧ σ.session.stance.inherited = true) ∨
      (σ.session.stance.Reached o ∧ back = .inTransaction ∧ σ.session.stance.fatal = false))
    (hv : s'.stance = { σ.session.stance with lifecycle := o.ending, wait := .finish o back }) :
    σ.Turned e s' ([.asked (.finish σ.session.stance.config.txid id o)].foldl feel
      { σ with session := s' }) := by
  have hnow : op = .finish o ∧ back = lc ∧ σ.session.stance.lifecycle = lc ∧
      (lc = .ready ∨ lc = .inTransaction) ∧
      (back = .inTransaction → σ.session.stance.Reached o) := by
    rcases h with ⟨-, he, hl, rfl, -⟩ | ⟨hr, rfl, -⟩
    · obtain ⟨rfl, hlc⟩ := hp.calls he
      exact ⟨rfl, (hlc.trans hl).symm, hlc.symm, Or.inl (hlc.trans hl), fun h => nomatch h⟩
    · obtain ⟨rfl, hlc, hl⟩ := hp.reached hr
      exact ⟨rfl, hlc.symm, hl.trans hlc.symm, Or.inr hlc, fun _ => hr⟩
  obtain ⟨rfl, rfl, hl, hlc, hr⟩ := hnow
  refine turned_asks hp hv (hg.coupled rfl rfl rfl (fun _ => ?_) (fun h => ?_)
    (fun _ _ => ⟨o, _, rfl⟩) (fun _ => ⟨_, _, rfl, .finishing o hlc rfl⟩) ?_ ?_)
    (.finishing o _ rfl not_ended_waiting hl hr rfl)
  · rw [hl]
    rcases hlc with rfl | rfl <;> rfl
  · cases o <;> cases h
  · simp only [request?, hid]
    rfl
  · intro w hw h'
    rcases h with ⟨hwait, -, -, rfl, -⟩ | ⟨hr, -⟩
    · rw [hl] at h'
      exact (h'.relocate (Or.inr (Or.inr (Or.inl (by simp))))).settle (by simp [hwait]) (by simp)
        (by simp)
    · exact h'.reach hr hw (by simp) (by simp)

/-- The transaction is over. -/
theorem turned_concluded (hg : Grounded σ.session.stance σ.work)
    (hp : Primed σ.session.stance σ.own σ.call e op lc) {o : Outcome}
    (h : (∃ back, σ.session.stance.wait = .finish o back ∧ e = .answered (.ok .finished)) ∨
      (σ.session.stance.Reached o ∧ ((σ.session.stance.fatal = true ∧ o = .abort) ∨
        (σ.session.stance.fatal = false ∧ σ.session.stance.inherited = false ∧
          σ.session.stance.started = false))))
    (hv : s'.stance = { σ.session.stance with
      lifecycle := .ready, inherited := false, wait := .nothing, started := false }) :
    σ.Turned e s' ([.returned (.ok .done)].foldl feel { σ with session := s' }) := by
  have hnow : op = .finish o ∧ σ.session.stance.lifecycle.hasIdentity = true := by
    rcases h with ⟨back, hw, -⟩ | ⟨hr, -⟩
    · obtain ⟨rfl, -, -, hl⟩ := hp.finishing hw
      exact ⟨rfl, hl ▸ hasIdentity_ending o⟩
    · obtain ⟨rfl, -, hl⟩ := hp.reached hr
      exact ⟨rfl, hl ▸ rfl⟩
  obtain ⟨rfl, hid⟩ := hnow
  refine turned_succeeds hp (by simp) (by simp) hv (hg.coupled rfl rfl rfl (fun _ => hid)
    (fun h => nomatch h) (fun o h => by cases o <;> cases h) (fun h => absurd rfl h) trivial ?_)
    (.concluded o rfl ?_ ?_ rfl)
  · intro w hw h'
    rcases h with ⟨back, hwait, -⟩ | ⟨hr, -⟩
    · exact h'.ending (hp.finishing hwait).2.2.2 (by simp [hwait])
    · exact h'.reach hr hw (by simp) (by simp)
  · rintro o' ⟨r, h⟩
    simp only [Option.some.injEq, Call.mk.injEq, Operation.finish.injEq] at h
    exact h.1.symm
  · exact h.imp id fun ⟨hr, h⟩ => ⟨hr, (hp.reached hr).2.2, h⟩

/-- The broker has refused to end the transaction. -/
theorem turned_refused (hg : Grounded σ.session.stance σ.work)
    (hp : Primed σ.session.stance σ.own σ.call e op lc) {o : Outcome} {back : Lifecycle}
    {err : BrokerError} {fatal : Bool} {error : SessionError}
    (hw : σ.session.stance.wait = .finish o back) (he : e = .answered (.error err))
    (hf : fatal = true ↔ σ.session.stance.fatal = true ∨
      (σ.session.stance.identity ≠ none ∧ ∃ x n k, err = .fenced x n k))
    (hv : s'.stance = { σ.session.stance with lifecycle := back, wait := .nothing, fatal := fatal }) :
    σ.Turned e s' ([.returned (.error error)].foldl feel { σ with session := s' }) := by
  obtain ⟨rfl, rfl, hlc, hl⟩ := hp.finishing hw
  refine turned_fails hp hv (hg.coupled rfl rfl rfl (fun _ => ?_) (fun h => ?_) (fun o h => ?_)
    (fun h => absurd rfl h) trivial ?_) (.refused o _ err fatal rfl not_ended_error hw he hf rfl)
  · rw [hl]
    exact hasIdentity_ending o
  · rcases hlc with rfl | rfl <;> cases h
  · rcases hlc with rfl | rfl <;> cases o <;> cases h
  · exact fun w _ h => h.ending hl (by simp [hw])

/-- The session is closed. -/
theorem coupled_closed (hg : Grounded σ.session.stance σ.work)
    (hw : σ.session.stance.wait = .nothing) {wait : Wait} {call' : Option Call}
    (hwait : (wait = .drain ∧ ∃ lc, call' = some ⟨.close, lc, none⟩) ∨ wait = .nothing) :
    FencedLog.Coupled { σ.session.stance with lifecycle := .closed, wait := wait } .idle σ.work
      call' := by
  refine hg.coupled rfl rfl rfl (fun h => nomatch h) (fun h => nomatch h)
    (fun o h => by cases o <;> cases h) (fun hn => ?_) ?_ fun w _ h => ?_
  · rcases hwait with ⟨rfl, lc, rfl⟩ | rfl
    · exact ⟨_, lc, rfl, .draining rfl⟩
    · exact absurd rfl hn
  · rcases hwait with ⟨rfl, -⟩ | rfl <;> trivial
  · refine (h.settle (by simp [hw]) ?_ ?_).relocate (Or.inr (Or.inl rfl)) <;>
      rcases hwait with ⟨rfl, -⟩ | rfl <;> simp

/-- **What an event of the session comes down to.** -/
theorem turned {r : Session × List Effect} (hg : Grounded σ.session.stance σ.work)
    (hp : Primed σ.session.stance σ.own σ.call e op lc) (ht : σ.session.Turns e r) :
    σ.Turned e r.1 (r.2.foldl feel { σ with session := r.1 }) := by
  obtain ⟨s', effects⟩ := r
  unfold Session.Turns at ht
  simp only at ht ⊢
  generalize hv : s'.stance = v' at ht
  have calm := fun hw => not_ending hg.sane hw
  cases ht with
  | stay h =>
    have hr : σ.session.stance.request? = none := by
      rcases hp.why with ⟨hw, -⟩ | ⟨-, -, -, hr | ⟨q, answer, hq, he, hfit⟩⟩
      · simp [request?, hw]
      · exact hr
      · exact absurd hfit (h q answer hq he)
    refine turned_waits hp hv (hg.coupled rfl rfl rfl id id hg.sane.ending ?_ ?_ fun _ _ h => h)
      (.quiet (.refl _) rfl not_ended_waiting rfl (hp.unasked hg hr)
        (fun _ _ hw hwk _ => ⟨hw, hwk⟩) (Or.inl ⟨rfl, rfl⟩))
    · exact fun hw => ⟨op, lc, rfl, hp.running hw⟩
    · rw [hr]
      trivial
  | failed err hu =>
    exact turned_fails hp hv (hg.settled hu _) (.pause not_ended_error (by simp) (by simp))
  | reported report hn hu =>
    obtain ⟨hs, hb, hf⟩ := hp.neutral hn
    refine turned_succeeds hp hs hb hv (hg.settled hu _) (.pause ?_ (by simp) (by simp))
    rintro o ⟨r, h⟩
    simp only [Option.some.injEq, Call.mk.injEq] at h
    have := hf o h.1
    rw [h.2.1] at this
    cases this
  | identifying hw hl he =>
    obtain ⟨rfl, -⟩ := hp.calls he
    refine turned_asks hp hv (hg.coupled rfl rfl rfl id id
      (fun o hl' => absurd hl' (calm (by simp [hw]) o)) (fun _ => ⟨_, _, rfl, .identity hl⟩) rfl ?_)
      (.pause not_ended_waiting (by simp) (by simp))
    exact fun w _ h => h.settle (by simp [hw]) (by simp) (by simp)
  | listing topic hw he =>
    obtain ⟨rfl, -⟩ := hp.calls he
    refine turned_asks hp hv (hg.coupled rfl rfl rfl id id
      (fun o hl' => absurd hl' (calm (by simp [hw]) o)) (fun _ => ⟨_, _, rfl, .listing topic⟩) rfl ?_)
      (.pause not_ended_waiting (by simp) (by simp))
    exact fun w _ h => h.settle (by simp [hw]) (by simp) (by simp)
  | routing draft ticket present hw hl he =>
    obtain ⟨rfl, -⟩ := hp.calls he
    refine turned_asks hp hv (hg.coupled rfl rfl rfl id id
      (fun o hl' => absurd hl' (calm (by simp [hw]) o))
      (fun _ => ⟨_, _, rfl, .routing draft ticket present hl⟩) rfl ?_)
      (.pause not_ended_waiting (by simp) (by simp))
    exact fun w _ h => h.settle (by simp [hw]) (by simp) (by simp)
  | acquired id inherited w hw h =>
    subst hw
    exact turned_acquired hg hp h hv
  | sent p w h hw hph => exact turned_sent hg hp h hv (Or.inr ⟨w, hw, hph, rfl⟩)
  | abandoned p h _ => exact turned_sent hg hp h hv (Or.inl rfl)
  | crowded p h =>
    obtain ⟨sent, rfl, hm, hl, hnf, hne⟩ := hp.sends h
    refine turned_waits hp hv (hg.coupled rfl rfl rfl id id
      (fun o hl' => absurd hl' (calm hne o)) (fun _ => ⟨_, _, rfl, .crowded sent p hm hl⟩) trivial ?_)
      (.pause not_ended_waiting (by simp) (by simp))
    exact fun w _ h => h.settle (fun next hn => absurd hn (hnf next)) (by simp) (by simp)
  | begun w started h hw hph => exact turned_begun hg hp h hw hph hv
  | beginning started h =>
    obtain ⟨rfl, hl, hnf, hne⟩ := hp.begins h
    refine turned_waits hp hv (hg.coupled rfl rfl rfl id id
      (fun o hl' => absurd hl' (calm hne o)) (fun _ => ⟨_, _, rfl, .beginning hl⟩) trivial ?_)
      (.quiet ⟨rfl, rfl, rfl, (Stays.refl _).worker⟩ rfl not_ended_waiting rfl (by simp) (by simp)
        (Or.inr (Or.inl ⟨hl, hl⟩)))
    exact fun w _ h => h.settle (fun next hn => absurd hn (hnf next)) (by simp) (by simp)
  | unbegun started err h =>
    obtain ⟨rfl, hl, hnf, hne⟩ := hp.begins h
    refine turned_fails hp hv (hg.coupled rfl rfl rfl id id
      (fun o hl' => absurd hl' (calm hne o)) (fun h => absurd rfl h) trivial ?_)
      (.quiet ⟨rfl, rfl, rfl, (Stays.refl _).worker⟩ rfl not_ended_error rfl (by simp) (by simp)
        (Or.inr (Or.inl ⟨hl, hl⟩)))
    exact fun w _ h => h.settle (fun next hn => absurd hn (hnf next)) (by simp) (by simp)
  | flushing w next flushed h hw hph => exact turned_flushing hg hp h hw hph hv
  | awaiting w next flushed h hw hph =>
    obtain ⟨hc, hs⟩ := stride_unflushed hg hp h hw (Or.inl ⟨rfl, rfl⟩) not_ended_waiting rfl
    exact turned_waits hp hv hc hs
  | unflushed w next flushed err h hw hph =>
    obtain ⟨hc, hs⟩ := stride_unflushed hg hp h hw (Or.inr rfl) not_ended_error rfl
    exact turned_fails hp hv hc hs
  | finishing o back id hid h => exact turned_finishing hg hp hid h hv
  | concluded o h => exact turned_concluded hg hp h hv
  | refused o back err fatal error hw he hf => exact turned_refused hg hp hw he hf hv
  | closing hw he =>
    obtain ⟨rfl, -⟩ := hp.calls he
    exact turned_waits hp hv (coupled_closed hg hw (Or.inl ⟨rfl, lc, rfl⟩))
      (.quiet ⟨rfl, rfl, rfl, (Stays.refl _).worker⟩ rfl not_ended_waiting rfl (by simp) (by simp)
        (Or.inr (Or.inr rfl)))
  | closed hw he hn =>
    obtain ⟨rfl, -⟩ := hp.calls he
    exact turned_succeeds hp (by simp) (by simp) hv (coupled_closed hg hw (Or.inr rfl))
      (.quiet ⟨rfl, rfl, rfl, (Stays.refl _).worker⟩ rfl (not_ended_of_ne (by simp)) rfl (by simp)
        (by simp) (Or.inr (Or.inr rfl)))
  | drained hw =>
    have hrun := hp.running (by simp [hw])
    rw [hw] at hrun
    cases hrun with
    | draining hn =>
      exact turned_succeeds hp (by simp) (by simp) hv
        (hg.settled ⟨by simp [hw], by simp [hw]⟩ _)
        (.pause (not_ended_of_ne (by simp)) (by simp) (by simp))

end Scene

end FencedLog
