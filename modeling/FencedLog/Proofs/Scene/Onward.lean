/-
# Nothing gets stuck in calm weather

While a session waits in the transaction, it or its worker or one of their lines
can always go on, and each thing done leaves less to do (`Session.toil`). So
wherever a transaction stands, whatever the owner has called may still return,
without anybody's help (`Sails.mayReturn`).

Key definitions: `Worker.burden`, `Session.toil`, `Act.Onward`,
`History.MayReturn`.
Key theorems: `Delivery.burden_round`, `Sails.works`, `Sails.ends`,
`Sails.nears`, `Sails.mayReturn`.
-/
import FencedLog.Proofs.Scene.Passage
import FencedLog.Proofs.Session.Halt

namespace FencedLog

/-! ### What a worker has to do -/

/-- What is left to do of a round. -/
def Phase.burden : Phase → Nat
  | .enrolling _ batches _ => batches.length + 1
  | .appending _ rest _ => rest.length + 1
  | .idle | .stopped => 0

/-- How much a worker has to do: a message may make a batch, and its partition
may have to be enrolled. -/
def Worker.burden (w : Worker) : Nat := 3 * w.queue.length + w.phase.burden

theorem length_place_le {α : Type} (limit : Nat) (p : TopicPartition) (item : α) :
    ∀ bs : List (Batch α), (Batches.place limit p item bs).length ≤ bs.length + 1
  | [] => Nat.le_refl _
  | b :: bs => by
    unfold Batches.place
    split
    · exact Nat.le_succ _
    · exact Nat.succ_le_succ (length_place_le limit p item bs)

theorem length_pushAll_le {α : Type} : ∀ (items : List (TopicPartition × α)) (s : Batches α),
    (s.pushAll items).batches.length ≤ s.batches.length + items.length
  | [], _ => Nat.le_refl _
  | (p, item) :: items, s => by
    have hrest := length_pushAll_le items (s.push p item)
    have hplace : (s.push p item).batches.length ≤ s.batches.length + 1 :=
      length_place_le s.limit p item s.batches
    rw [Batches.pushAll, List.length_cons]
    omega

namespace Delivery

variable {d : Delivery}

theorem burden_reach (d : Delivery) (barrier : Option Barrier) :
    (d.reach barrier).worker.burden = 3 * d.worker.queue.length := by
  rcases barrier with _ | _ | _ <;> rfl

theorem burden_appendNext (hf : d.shared.fatal = none) (barrier : Option Barrier)
    (batches : List (Batch Load)) : (d.appendNext barrier batches).1.worker.burden =
      3 * d.worker.queue.length + batches.length := by
  cases batches with
  | nil => exact burden_reach d barrier
  | cons batch rest =>
    simp only [appendNext, hf]
    rfl

theorem burden_dispatch (hf : d.shared.fatal = none) (barrier : Option Barrier)
    (batches : Batches Load) : (d.dispatch barrier batches).1.worker.burden ≤
      3 * d.worker.queue.length + batches.batches.length + 1 := by
  unfold dispatch
  split
  · exact Nat.le_trans (Nat.le_of_eq (burden_reach d barrier)) (by omega)
  · split
    · exact Nat.le_trans (Nat.le_of_eq (burden_appendNext hf barrier _)) (Nat.le_succ _)
    · exact Nat.le_refl _

theorem burden_deliver (hf : d.shared.fatal = none) (barrier : Option Barrier)
    (pending : List Pending) : (d.deliver barrier pending).1.worker.burden ≤
      3 * d.worker.queue.length + pending.length + 1 := by
  unfold deliver
  rw [hf]
  have hdispatch := burden_dispatch
    (d := { d with shared := d.shared.countFailed (misrouted pending).length }) hf barrier
    ((Batches.empty d.worker.maxBatch).pushAll (routed pending))
  have hpush := length_pushAll_le (routed pending) (Batches.empty d.worker.maxBatch)
  have hrouted := length_routed_add_misrouted pending
  simp only [Batches.empty, List.length_nil, Nat.zero_add] at hpush
  exact Nat.le_trans hdispatch (by simp only [Batches.empty]; omega)

/-- A round leaves an idle worker less to do. -/
theorem burden_round (hf : d.shared.fatal = none) (hp : d.worker.phase = .idle)
    (hq : d.worker.queue ≠ []) (visible : Nat) :
    (d.round visible).1.worker.burden < d.worker.burden := by
  obtain ⟨barrier, rest, hqueue, hless, hround⟩ := round_taken hp visible
  rw [hround]
  generalize d.taken visible = pending at hqueue ⊢
  have hlength := congrArg List.length hqueue
  simp only [List.length_append, List.length_map] at hlength
  have hburden : d.worker.burden = 3 * d.worker.queue.length := by
    rw [Worker.burden, hp]
    rfl
  have hrest := hless hq
  simp only
  cases pending with
  | nil =>
    rw [List.isEmpty_nil, if_pos rfl, burden_reach, hburden]
    exact Nat.mul_lt_mul_of_pos_left hrest (Nat.succ_pos 2)
  | cons x pending =>
    have hdeliver := burden_deliver
      (d := { d with worker := { d.worker with queue := rest } }) hf barrier (x :: pending)
    simp only [List.length_cons] at hdeliver hlength
    rw [List.isEmpty_cons, if_neg Bool.false_ne_true, hburden]
    omega

/-- So does the answer that a worker waits for. -/
theorem burden_enrolled (hf : d.shared.fatal = none) {fresh : List TopicPartition}
    {batches : List (Batch Load)} {barrier : Option Barrier}
    (hp : d.worker.phase = .enrolling fresh batches barrier) :
    (d.answered (.ok .enrolled)).1.worker.burden < d.worker.burden := by
  have happend := burden_appendNext (d := { d with
    worker := { d.worker with enrolled := d.worker.enrolled ++ fresh } }) hf barrier batches
  have hburden : d.worker.burden = 3 * d.worker.queue.length + (batches.length + 1) := by
    rw [Worker.burden, hp]
    rfl
  unfold answered
  rw [hp]
  exact happend.trans_lt (hburden ▸ Nat.lt_succ_self _)

theorem burden_appended (hf : d.shared.fatal = none) {batch : Batch Load}
    {rest : List (Batch Load)} {barrier : Option Barrier}
    (hp : d.worker.phase = .appending batch rest barrier) (base : Nat) :
    (d.answered (.ok (.appended base))).1.worker.burden < d.worker.burden := by
  have happend := burden_appendNext (d := { d with
    shared := d.shared.countAcknowledged batch.items.length }) hf barrier rest
  have hburden : d.worker.burden = 3 * d.worker.queue.length + (rest.length + 1) := by
    rw [Worker.burden, hp]
    rfl
  unfold answered
  rw [hp]
  exact happend.trans_lt (hburden ▸ Nat.lt_succ_self _)

end Delivery

/-! ### What a session has to do -/

/-- How far a session in a transaction is from the end of a call. -/
def Wait.depth : Wait → Nat
  | .routing .. | .room .. => 3
  | .flush _ => 2
  | .finish .. => 1
  | _ => 0

/-- How much a session and its worker have to do before a call returns. -/
def Session.toil (s : Session) : Nat := 4 * s.wait.depth + s.worker.elim 0 Worker.burden

/-- The session, its worker or the broker goes on, and nothing is lost: nobody
calls, and nobody else does anything. -/
def Act.Onward : Act → Prop
  | .reach _ _ lost => lost = none
  | .hear _ | .wake | .round _ => True
  | _ => False

/-- The last call has returned. -/
def History.Answered (h : History) : Prop := ∃ op lc r, h.book.call = some ⟨op, lc, some r⟩

/-- The last call has returned, or there is less to do. -/
def History.Nears (h h' : History) : Prop :=
  h'.Answered ∨ (h'.scene.session.wait ≠ .nothing ∧
    h'.scene.session.toil < h.scene.session.toil)

variable {o : Origin} {ours : String → Prop} {sends : List Sent} {acked : List Receipt}
  {w : Worker} {h h' : History} {s s' : Session} {a : Act} {e : Event} {op : Operation}
  {lc : Lifecycle} {r : Except SessionError Report}

theorem Scene.admits_onward : ∀ {as : List Act}, (∀ a ∈ as, a.Onward) → ∀ σ : Scene,
    σ.Admits (Scene.Calm ours) as
  | [], _, _ => trivial
  | a :: as, hon, σ => by
    refine ⟨?_, Scene.admits_onward (fun b hb => hon b (List.mem_cons_of_mem _ hb)) _⟩
    have ha := hon a List.mem_cons_self
    cases a <;> first | exact ha | exact ha.elim

/-- Less work for the worker is less to do. -/
theorem Session.toil_deliver (hw : s.worker = some w) {f : Delivery → Delivery × List Deed}
    (hb : (f ⟨w, s.shared⟩).1.worker.burden < w.burden) :
    (s.deliver f).1.wait = s.wait ∧ (s.deliver f).1.toil < s.toil := by
  simp only [deliver, toil, hw, Option.elim, true_and]
  omega

/-- A call that runs has returned when the session says so. -/
theorem History.Primed.answers (hp : h.Primed a e)
    (hcall : ∃ op lc, (h.book.called h.scene.session e).call = some ⟨op, lc, none⟩)
    (hstep : h.scene.session.step e = (s', [.returned r])) : (h.act a).Answered := by
  obtain ⟨op, lc, hcall⟩ := hcall
  refine ⟨op, lc, r, ?_⟩
  rw [(hp.returned hstep).book, Daybook.returned, hcall]
  cases op <;> cases r <;> rfl

namespace Sails

/-- **The worker hears of what it waits for**, and has less to do. -/
theorem hears (hs : Sails o ours sends acked w h) {answer : Answer}
    (hl : h.scene.work = .replied answer) (hw : h.scene.session.wait ≠ .nothing) :
    h.Nears (h.act (.hear .work)) := by
  have hevent : h.scene.event? (.hear .work) = some (.delivered answer) := by
    simp only [Scene.event?, hl]
  have hsession : (h.act (.hear .work)).scene.session =
      (h.scene.session.deliver (·.answered answer)).1 := by
    refine (Scene.session_act h.scene (.hear .work)).trans ?_
    rw [hevent]
    rfl
  have hburden : (Delivery.answered ⟨w, h.scene.session.shared⟩ answer).1.worker.burden <
      w.burden := by
    have hserves := hs.mans.serves
    rw [hl] at hserves
    cases hp : w.phase with
    | idle =>
      simp only [Worker.request?, hp] at hserves
      exact hserves.elim
    | stopped => exact absurd hp hs.hauls.alive
    | enrolling fresh batches barrier =>
      simp only [Worker.request?, hp] at hserves
      obtain rfl := (fits_enroll hserves).resolve_right (hs.unrefused hl)
      exact Delivery.burden_enrolled (d := ⟨w, h.scene.session.shared⟩) hs.steers.fatal hp
    | appending batch rest barrier =>
      simp only [Worker.request?, hp] at hserves
      obtain ⟨base, rfl⟩ := (fits_append hserves).resolve_right (hs.unrefused hl)
      exact Delivery.burden_appended (d := ⟨w, h.scene.session.shared⟩) hs.steers.fatal hp base
  obtain ⟨hwait, htoil⟩ := Session.toil_deliver (f := (·.answered answer)) hs.worker hburden
  exact Or.inr (hsession ▸ ⟨hwait.symm ▸ hw, htoil⟩)

/-- **A worker with something to do goes on.** -/
theorem works (hs : Sails o ours sends acked w h) (hw : h.scene.session.wait ≠ .nothing)
    (hbusy : w.phase = .idle → w.queue ≠ []) :
    ∃ as : List Act, (∀ a ∈ as, a.Onward) ∧ h.Nears (h.run as) := by
  by_cases hp : w.phase = .idle
  · obtain ⟨hwait, htoil⟩ := Session.toil_deliver (f := (·.round 1)) hs.worker
      (Delivery.burden_round (d := ⟨w, h.scene.session.shared⟩) hs.steers.fatal hp (hbusy hp) 1)
    have hsession : (h.act (.round 1)).scene.session =
        (h.scene.session.deliver (·.round 1)).1 := Scene.session_act h.scene (.round 1)
    refine ⟨[.round 1], by simp [Act.Onward], Or.inr ?_⟩
    show (h.act (.round 1)).scene.session.wait ≠ .nothing ∧
      (h.act (.round 1)).scene.session.toil < h.scene.session.toil
    exact hsession ▸ ⟨hwait.symm ▸ hw, htoil⟩
  have hserves := hs.mans.serves
  cases hl : h.scene.work with
  | idle =>
    rw [hl] at hserves
    have := hs.hauls.alive
    cases hphase : w.phase <;> simp_all [Worker.request?, Line.Serves]
  | replied answer => exact ⟨[.hear .work], by simp [Act.Onward], hs.hears hl hw⟩
  | sent q =>
    have hscene : (h.act (.reach .work .zero none)).scene = h.scene.reachWork .zero none q := by
      simp only [History.act, Scene.act, hl]
    have hsession : (h.act (.reach .work .zero none)).scene.session = h.scene.session := by
      rw [hscene]
      rfl
    have hwork : (h.act (.reach .work .zero none)).scene.work =
        .replied (h.scene.chronicle.broker.handle .zero q).2 := by
      rw [hscene]
      rfl
    have hnears := (hs.reach_work .zero).hears hwork (hsession.symm ▸ hw)
    refine ⟨[.reach .work .zero none, .hear .work], by simp [Act.Onward], ?_⟩
    rw [History.Nears, hsession] at hnears
    exact hnears

/-- A message finds room with a worker that has nothing to do. -/
theorem push_of_rest (hs : Sails o ours sends acked w h) (hq : w.queue = [])
    (hc : 0 < h.scene.session.config.queueCapacity) (hconfig : s.config = h.scene.session.config)
    (hw : s.worker = some w) (m : Message) (next : AfterPush) :
    s.push m next = { s with worker := some (Stance.queue w m) }.pushed next := by
  obtain ⟨-, hpush⟩ | ⟨hfull, -⟩ := Session.push_of_alive hw hs.hauls.alive m next
  · exact hpush
  · rw [hconfig, hq] at hfull
    exact absurd hc (Nat.not_lt_of_le hfull)

/-- **The session hears of what it has asked for**, and the call returns. -/
theorem ends (hs : Sails o ours sends acked w h) (hq : w.queue = [])
    (hc : 0 < h.scene.session.config.queueCapacity) {answer : Answer}
    (hl : h.scene.own = .replied answer) : (h.act (.hear .own)).Answered := by
  have hp := History.primed_hear hl
  have hvoyage := hs.voyage
  have hserves := hs.coupled.own
  rw [hl] at hvoyage hserves
  have hwait : h.scene.session.wait ≠ .nothing := fun hw => by
    simp [Stance.request?, Session.stance, hw, Line.Serves] at hserves
  obtain ⟨op, lc, hcall, -⟩ := hs.running hwait
  cases hvoyage with
  | underway _ _ ha _ =>
    obtain ⟨x, hw, hr, hx, -, ho⟩ := ha.routes hserves (by simp)
    obtain ⟨infos, rfl, hlength⟩ := ho answer rfl
    rw [← hr] at hx
    obtain ⟨s₁, -, hready, -, he⟩ := hs.steers.routed hx hw hlength
    exact hp.answers ⟨op, lc, hcall⟩ (he.trans
      (hs.push_of_rest hq hc hready.config (hready.worker.trans hs.worker) _ _))
  | asked _ _ _ _ ho => cases ho
  | granted _ hw ho =>
    obtain rfl := Line.replied.inj ho
    refine hp.answers ⟨op, lc, hcall⟩ (Eq.trans (b := h.scene.session.conclude .commit) ?_ rfl)
    simp only [Session.step, Session.answered, hw]
  | refused _ _ _ hw reason ho =>
    obtain rfl := Line.replied.inj ho
    refine hp.answers ⟨op, lc, hcall⟩ (Eq.trans
      (b := h.scene.session.finishRefused .inTransaction (.invalidState reason)) ?_ rfl)
    simp only [Session.step, Session.answered, hw]

/-- A flush has been reached, if a worker has nothing to do. -/
theorem flushed_of_rest (hs : Sails o ours sends acked w h) (hi : w.phase = .idle)
    (hq : w.queue = []) {next : AfterFlush} (hw : h.scene.session.wait = .flush next) :
    w.flushed = true := by
  by_contra hf
  obtain ⟨reset, ps, hagenda, -⟩ := hs.mans.shape.agenda hs.hauls.alive
  have hflush : flushing h.scene.session.stance.wait w.flushed = [.barrier .flush] := by
    rw [show h.scene.session.stance.wait = _ from hw, Bool.eq_false_iff.mpr hf]
    rfl
  rw [hflush, Worker.agenda, hi, hq] at hagenda
  simp [Phase.barrier] at hagenda

/-- **The session looks again**, when its worker has nothing to do. -/
theorem wakes (hs : Sails o ours sends acked w h) (hi : w.phase = .idle) (hq : w.queue = [])
    (hc : 0 < h.scene.session.config.queueCapacity) (hl : h.scene.own = .idle)
    (hn : h.scene.session.wait ≠ .nothing) : h.Nears (h.act .wake) := by
  obtain ⟨op, lc, hcall, -⟩ := hs.running hn
  have hvoyage := hs.voyage
  have hserves := hs.coupled.own
  rw [hl] at hvoyage hserves
  have hsession : (h.act .wake).scene.session = (h.scene.session.step .woken).1 :=
    Scene.session_act h.scene .wake
  have hburden : w.burden = 0 := by
    rw [Worker.burden, hi, hq]
    rfl
  have htoil : h.scene.session.toil = 4 * h.scene.session.wait.depth := by
    rw [Session.toil, hs.worker]
    exact congrArg (_ + ·) hburden
  cases hvoyage with
  | underway _ _ hw _ =>
    cases hw with
    | nothing hw => exact absurd hw hn
    | routing x hw => simp [Stance.request?, Session.stance, hw, Line.Serves] at hserves
    | crowded x lc hw =>
      have hp := History.primed_wake hs.coupled
        (by simp only [Stance.request?, Session.stance, hw])
      have hpush := hs.push_of_rest hq hc rfl hs.worker (.send (x.pending o.count (o.turned sends)))
        .sent
      refine Or.inl (hp.answers ⟨op, _, hcall⟩ (Eq.trans ?_ hpush))
      simp only [Session.step, Session.woken, hw]
    | flushing next hnext hw =>
      have hp := History.primed_wake hs.coupled
        (by rcases hw with hw | hw <;> simp only [Stance.request?, Session.stance, hw])
      rcases hw with hw | hw
      · have hstep : h.scene.session.step .woken =
            h.scene.session.push (.barrier .flush) (.flush next) := by
          simp only [Session.step, Session.woken, hw]
        rw [hs.push_of_rest hq hc rfl hs.worker] at hstep
        refine Or.inr ?_
        rw [hsession, hstep, htoil, hw]
        refine ⟨by simp [Session.pushed], ?_⟩
        simp [Session.toil, Session.pushed, Wait.depth, Stance.queue, Worker.burden, hq, hi,
          Phase.burden]
      · have hf := hs.flushed_of_rest hi hq hw
        have hstep : h.scene.session.step .woken = h.scene.session.flushed next := by
          simp only [Session.step, Session.woken, hw, hs.worker, hf, ↓reduceIte]
        rcases hnext with rfl | rfl
        · exact Or.inl (hp.answers ⟨op, lc, hcall⟩ hstep)
        · replace hstep := hstep.trans hs.steers.finishFlushed
          split at hstep
          · refine Or.inr ?_
            rw [hsession, hstep, htoil, hw]
            refine ⟨by simp, ?_⟩
            simp [Session.toil, hs.worker, hburden, Wait.depth]
          · exact Or.inl (hp.answers ⟨op, lc, hcall⟩ hstep)
  | asked _ _ _ _ ho => cases ho
  | granted _ _ ho => cases ho
  | refused _ _ _ _ _ ho => cases ho

/-- **While the session waits, something can be done** that brings the end of
the call nearer. -/
theorem nears (hs : Sails o ours sends acked w h)
    (hc : 0 < h.scene.session.config.queueCapacity) (hw : h.scene.session.wait ≠ .nothing) :
    ∃ as : List Act, (∀ a ∈ as, a.Onward) ∧ h.Nears (h.run as) := by
  by_cases hrest : w.phase = .idle ∧ w.queue = []
  · obtain ⟨hi, hq⟩ := hrest
    cases hl : h.scene.own with
    | idle => exact ⟨[.wake], by simp [Act.Onward], hs.wakes hi hq hc hl hw⟩
    | replied answer => exact ⟨[.hear .own], by simp [Act.Onward], Or.inl (hs.ends hq hc hl)⟩
    | sent q =>
      have hscene : (h.act (.reach .own .zero none)).scene = h.scene.reachOwn .zero none q := by
        simp only [History.act, Scene.act, hl]
      have hown : (h.act (.reach .own .zero none)).scene.own =
          .replied (h.scene.chronicle.broker.handle .zero q).2 := by
        rw [hscene]
        rfl
      refine ⟨[.reach .own .zero none, .hear .own], by simp [Act.Onward], Or.inl ?_⟩
      refine (hs.reach_own .zero).ends hq ?_ hown
      rw [hscene]
      exact hc
  · exact hs.works hw fun hi hq => hrest ⟨hi, hq⟩

end Sails

/-! ### The call returns -/

theorem Daybook.feel_call {b : Daybook} {res : Option (Except SessionError Report)}
    (hb : b.call = some ⟨op, lc, res⟩) (x : Effect) :
    ∃ res', (b.feel x).call = some ⟨op, lc, res'⟩ := by
  rcases x with q | ⟨q | ⟨t, c⟩ | t⟩ | r | _
  case returned =>
    refine ⟨some r, ?_⟩
    simp only [feel, returned, hb]
    cases op <;> cases r <;> rfl
  all_goals exact ⟨res, hb⟩

/-- While nobody calls, the last call is the same. -/
theorem History.call_onward (ha : a.Onward) {res : Option (Except SessionError Report)}
    (hcall : h.book.call = some ⟨op, lc, res⟩) :
    ∃ res', (h.act a).book.call = some ⟨op, lc, res'⟩ := by
  have fold : ∀ (effects : List Effect) {b : Daybook} {res : Option (Except SessionError Report)},
      b.call = some ⟨op, lc, res⟩ → ∃ res', (effects.foldl Daybook.feel b).call =
        some ⟨op, lc, res'⟩ := by
    intro effects
    induction effects with
    | nil => exact fun hb => ⟨_, hb⟩
    | cons x xs ih => exact fun hb => ih (Daybook.feel_call hb x).choose_spec
  have step : ∀ e : Event, (∀ op', e ≠ .called op') →
      ∃ res', (h.book.step h.scene.session e).call = some ⟨op, lc, res'⟩ := fun e he => by
    have hcalled : h.book.called h.scene.session e = h.book := by
      cases e <;> first | rfl | exact absurd rfl (he _)
    rw [Daybook.step, hcalled]
    exact fold _ hcall
  have hevent : ∀ e, h.scene.event? a = some e → ∀ op', e ≠ .called op' := by
    rintro e he op' rfl
    cases a with
    | hear side => cases side <;> simp only [Scene.event?] at he <;> split at he <;> cases he
    | _ => first | exact ha.elim | cases he
  cases he : h.scene.event? a with
  | none =>
    refine ⟨res, ?_⟩
    simp only [act, he, Option.elim, hcall]
  | some e =>
    obtain ⟨res', hres⟩ := step e (hevent e he)
    refine ⟨res', ?_⟩
    simp only [act, he, Option.elim, hres]

theorem History.call_run : ∀ {as : List Act} {h : History}
    {res : Option (Except SessionError Report)}, (∀ a ∈ as, a.Onward) →
      h.book.call = some ⟨op, lc, res⟩ → ∃ res', (h.run as).book.call = some ⟨op, lc, res'⟩
  | [], _, res, _, hcall => ⟨res, hcall⟩
  | a :: as, _, _, hon, hcall => by
    obtain ⟨res', hcall'⟩ := call_onward (hon a List.mem_cons_self) hcall
    have hrest := call_run (fun b hb => hon b (List.mem_cons_of_mem a hb)) hcall'
    exact hrest

theorem History.config_run : ∀ (as : List Act) (h : History),
    (h.run as).scene.session.config = h.scene.session.config
  | [], _ => rfl
  | a :: as, h => by
    refine (config_run as (h.act a)).trans ?_
    have hsession : (h.act a).scene.session = _ := Scene.session_act h.scene a
    rw [hsession]
    cases h.scene.event? a with
    | none => rfl
    | some e => exact (Session.halts_step _ e).config

/-- Sooner or later a call returns. The induction is on what is left to do. -/
theorem Sails.answered (ho : o.inherited = false → ∀ p, ¬ o.held p)
    (hs : Sails o ours sends acked w h) (hc : 0 < h.scene.session.config.queueCapacity)
    (hw : h.scene.session.wait ≠ .nothing) :
    ∃ as : List Act, (∀ a ∈ as, a.Onward) ∧ (h.run as).Answered := by
  induction htoil : h.scene.session.toil using Nat.strongRecOn generalizing h sends acked w with
  | _ n ih =>
    obtain ⟨as, hon, hanswered | ⟨hw', hlt⟩⟩ := hs.nears hc hw
    · exact ⟨as, hon, hanswered⟩
    · rcases Sails.run ho (Or.inl ⟨_, _, _, hs⟩) (Scene.admits_onward hon _) with
        ⟨_, _, _, hs'⟩ | ⟨_, hd⟩
      · obtain ⟨bs, hon', hanswered⟩ := ih _ (htoil ▸ hlt) hs'
          ((History.config_run as h).symm ▸ hc) hw' rfl
        refine ⟨as ++ bs, fun b hb => (List.mem_append.mp hb).elim (hon b) (hon' b), ?_⟩
        rw [History.run_append]
        exact hanswered
      · exact ⟨as, hon, _, _, _, hd.call⟩

/-- The call that is running, if one is, may return without anybody's help. -/
def History.MayReturn (h : History) : Prop :=
  h.scene.session.wait ≠ .nothing → ∃ (as : List Act) (op : Operation) (lc : Lifecycle)
    (r : Except SessionError Report), (∀ a ∈ as, a.Onward) ∧
      h.book.call = some ⟨op, lc, none⟩ ∧ (h.run as).book.call = some ⟨op, lc, some r⟩

/-- **Whatever the session waits for can come.** -/
theorem Sails.mayReturn (ho : o.inherited = false → ∀ p, ¬ o.held p)
    (hs : Sails o ours sends acked w h) (hc : 0 < h.scene.session.config.queueCapacity) :
    h.MayReturn := fun hw => by
  obtain ⟨op, lc, hcall, -⟩ := hs.running hw
  obtain ⟨as, hon, op', lc', r, hanswered⟩ := hs.answered ho hc hw
  obtain ⟨res, hsame⟩ := History.call_run hon hcall
  obtain ⟨rfl, rfl, -⟩ := Call.mk.inj (Option.some.inj (hanswered.symm.trans hsame))
  exact ⟨as, op', lc', r, hon, hcall, hanswered⟩

end FencedLog
