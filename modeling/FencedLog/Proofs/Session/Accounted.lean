/-
# Every send is accounted for

The sends that a session has accepted are those that were completed, those
that were given up, and those that its worker still has, one for one; and the
counters say how many (`Accounted`). Nothing is given up but by a worker that
dies or is killed by a close. Once a flush has been reached, and until the next
send, nothing is outstanding.

Key definitions: `Accounted`.
Key theorems: `Accounted.step`, `Accounted.run`, `Accounted.gives_up`,
`Accounted.signalled`, `Accounted.settled`.
-/
import FencedLog.Proofs.Session.Steps

namespace FencedLog

open Stance

/-! ### The session beside a broker -/

namespace Daybook

/-- The session beside a broker that nobody uses, with these lines. -/
def scene (b : Daybook) (s : Session) (own work : Line) : Scene :=
  ⟨.start .default, s, own, work, b.call, .empty⟩

theorem session_feel (σ : Scene) (x : Effect) : (σ.feel x).session = σ.session := by
  rcases x with q | ⟨q | ⟨t, c | c⟩ | t⟩ | r | _
  case returned =>
    simp only [Scene.feel, Scene.returned]
    split
    · rfl
    · split <;> rfl
  all_goals rfl

theorem call_feel {σ : Scene} {b : Daybook} (h : σ.call = b.call) (x : Effect) :
    (σ.feel x).call = (b.feel x).call := by
  rcases x with q | ⟨q | ⟨t, c | c⟩ | t⟩ | r | _
  case returned =>
    simp only [Scene.feel, feel, Scene.returned, returned, h]
    cases b.call with
    | none => exact h
    | some call =>
      simp only
      split <;> split <;> rfl
  all_goals exact h

/-- An event of the session in a scene. -/
theorem perform_eq (e : Event) {σ : Scene} {b : Daybook} (h : σ.call = b.call) :
    (σ.perform e).session = (σ.session.step e).1 ∧
      (σ.perform e).call = ((σ.session.step e).2.foldl feel b).call := by
  have fold : ∀ (effects : List Effect) (σ : Scene) (b : Daybook), σ.call = b.call →
      (effects.foldl Scene.feel σ).session = σ.session ∧
        (effects.foldl Scene.feel σ).call = (effects.foldl feel b).call := by
    intro effects
    induction effects with
    | nil => exact fun σ b h => ⟨rfl, h⟩
    | cons x xs ih =>
      intro σ b h
      obtain ⟨hs, hc⟩ := ih (σ.feel x) (b.feel x) (call_feel h x)
      exact ⟨hs.trans (session_feel σ x), hc⟩
  exact fold _ _ _ h

/-- An answer that the worker does not wait for changes nothing. -/
theorem delivered_unfit (d : Delivery) (answer : Answer) :
    d.answered answer = (d, []) ∨ ∃ q, d.worker.request? = some q ∧ Fits q answer := by
  unfold Delivery.answered
  split
  · rename_i hp
    exact Or.inr ⟨.enroll _ _ _, by simp only [Worker.request?, hp]; rfl, trivial⟩
  · rename_i hp
    exact Or.inr ⟨.enroll _ _ _, by simp only [Worker.request?, hp]; rfl, trivial⟩
  · rename_i hp
    exact Or.inr ⟨.append _ _ _ _, by simp only [Worker.request?, hp]; rfl, trivial⟩
  · rename_i hp
    exact Or.inr ⟨.append _ _ _ _, by simp only [Worker.request?, hp]; rfl, trivial⟩
  · exact Or.inl rfl

variable {s : Session} {b : Daybook} {own work : Line}

/-- **A session stays in step with its call, whatever is answered.** -/
theorem coupled_step (hc : Coupled s.stance own work b.call) {e : Event} (hne : e ≠ .abandoned) :
    ∃ own' work', Coupled (s.step e).1.stance own' work' (b.step s e).call := by
  have same : s.step e = (s, []) → b.called s e = b →
      ∃ own' work', Coupled (s.step e).1.stance own' work' (b.step s e).call := by
    intro hstep hbook
    rw [Daybook.step, hstep, hbook]
    exact ⟨own, work, hc⟩
  have acts : ∀ {σ : Scene} {a : Act} {τ : Scene}, σ.Coupled → σ.act a = τ →
      τ.session = (s.step e).1 → τ.call = (b.step s e).call →
      ∃ own' work', Coupled (s.step e).1.stance own' work' (b.step s e).call := by
    intro σ a τ hσ hact hsession hcall
    have h := (hσ.act a).2
    rw [hact] at h
    rw [← hsession, ← hcall]
    exact ⟨τ.own, τ.work, h⟩
  have hang : ∀ σ : Scene, σ.hangUp.session = σ.session ∧ σ.hangUp.call = σ.call := by
    intro σ
    unfold Scene.hangUp
    split <;> exact ⟨rfl, rfl⟩
  cases e with
  | abandoned => exact absurd rfl hne
  | called op =>
    by_cases hw : s.wait = .nothing
    · obtain ⟨hs, hcall⟩ := perform_eq (.called op)
        (σ := { b.scene s own work with call := some ⟨op, s.lifecycle, none⟩ })
        (b := b.called s (.called op)) (by simp only [called, hw])
      refine acts (σ := b.scene s own work) (a := .call op) hc ?_ hs hcall
      simp only [Scene.act, scene, hw]
    · obtain ⟨hstep, hbook⟩ := Session.called_busy hw b
      exact same hstep hbook
  | answered answer =>
    rcases Session.answered_unfit hc answer with hstay | ⟨q, hq, hfit⟩
    · exact same hstay rfl
    · have hserves : (Line.replied answer).Serves s.stance.request? := by
        rw [hq]
        exact hfit
      obtain ⟨hs, hcall⟩ := perform_eq (.answered answer) (σ := b.scene s .idle work) (b := b) rfl
      exact acts (σ := b.scene s (.replied answer) work) (a := .hear .own)
        (Scene.coupled_own hc hserves) rfl hs hcall
  | woken =>
    obtain ⟨hs, hcall⟩ := perform_eq .woken (σ := b.scene s own work) (b := b) rfl
    exact acts (σ := b.scene s own work) (a := .wake) hc rfl hs hcall
  | outwaited =>
    obtain ⟨hs, hcall⟩ := perform_eq .outwaited (σ := b.scene s own work) (b := b) rfl
    exact acts (σ := b.scene s own work) (a := .outwait) hc rfl ((hang _).1.trans hs)
      ((hang _).2.trans hcall)
  | round visible =>
    obtain ⟨hs, hcall⟩ := perform_eq (.round visible) (σ := b.scene s own work) (b := b) rfl
    exact acts (σ := b.scene s own work) (a := .round visible) hc rfl hs hcall
  | delivered answer =>
    cases hw : s.worker with
    | none => exact same (by simp only [Session.step, Session.deliver, hw]) rfl
    | some w =>
      rcases delivered_unfit ⟨w, s.shared⟩ answer with hstay | ⟨q, hq, hfit⟩
      · refine same ?_ rfl
        simp only [Session.step, Session.deliver, hw, hstay]
        rw [← hw]
        rfl
      · have hc' : Coupled s.stance own (.replied answer) b.call :=
          { hc with
            unmanned := fun hn => by
              rw [show s.stance.worker = some w from hw] at hn
              cases hn
            manned := fun w' hw' => by
              obtain rfl : w = w' := Option.some.inj (hw.symm.trans hw')
              have hm := hc.manned w hw
              refine ⟨hm.identity, hm.txid, hm.sound, hm.shape, ?_⟩
              rw [hq]
              exact hfit }
        obtain ⟨hs, hcall⟩ := perform_eq (.delivered answer) (σ := b.scene s own .idle) (b := b) rfl
        exact acts (σ := b.scene s own (.replied answer)) (a := .hear .work) hc' rfl hs hcall
  | drained =>
    obtain ⟨hs, hcall⟩ := perform_eq .drained (σ := b.scene s own work) (b := b) rfl
    exact acts (σ := b.scene s own work) (a := .drain) hc rfl hs hcall
  | died =>
    obtain ⟨hs, hcall⟩ := perform_eq .died (σ := b.scene s own work) (b := b) rfl
    exact acts (σ := b.scene s own work) (a := .die) hc rfl ((hang _).1.trans hs)
      ((hang _).2.trans hcall)

end Daybook

/-! ### The balance -/

/-- The sends of a session are accounted for. -/
structure Accounted (s : Session) (b : Daybook) : Prop where
  coupled : ∃ own work, Coupled s.stance own work b.call
  /-- The accepted sends are those completed, given up, or outstanding. -/
  tickets : (b.accepted.map (·.ticket)).Perm
    (b.completed.map Prod.fst ++ b.dropped ++ s.outstanding)
  acknowledged : s.shared.counters.acknowledged = b.completed.countP (·.2.isOk)
  failed : s.shared.counters.failed = b.completed.countP (!·.2.isOk)
  sent : s.shared.counters.sent = b.accepted.length + s.wait.crowd
  /-- Whoever has given up a send has lost its worker. -/
  dropped : b.dropped ≠ [] → ∃ w, s.worker = some w ∧ w.phase = .stopped
  rests : s.stance.Rests b.call → s.outstanding = [] ∧ b.dropped = []
  closed : s.lifecycle = .closed → s.wait = .drain ∨ (s.wait = .nothing ∧ s.outstanding = [])

namespace Accounted

variable {s : Session} {b : Daybook}

/-- A session that has just been built has no sends. -/
theorem anew (broker : BrokerConfig) (config : SessionConfig) :
    Accounted (Scene.start broker config).session .empty where
  coupled := ⟨.idle, .idle, Scene.coupled_start broker config⟩
  tickets := .refl _
  acknowledged := rfl
  failed := rfl
  sent := rfl
  dropped := fun h => absurd rfl h
  rests := fun _ => ⟨rfl, rfl⟩
  closed := fun h => absurd h (by simp [Scene.start])

theorem start {config : SessionConfig} {connected : Bool}
    (h : Session.build config connected = .ok s) : Accounted s .empty := by
  obtain ⟨-, -, rfl⟩ := Session.build_eq_ok_iff.mp h
  exact anew .default config

/-- Every accepted send was completed, or was given up, or is outstanding. -/
theorem length (h : Accounted s b) : b.accepted.length =
    s.shared.counters.acknowledged + s.shared.counters.failed + b.dropped.length +
      s.outstanding.length := by
  have hlen := h.tickets.length_eq
  have hcount := List.length_eq_countP_add_countP (fun x : Ticket × Completion => x.2.isOk)
    (l := b.completed)
  have hfailed : b.completed.countP (fun x => ¬ x.2.isOk = true) =
      b.completed.countP (!·.2.isOk) := by
    congr 1
    funext x
    simp
  rw [hfailed, ← h.acknowledged, ← h.failed] at hcount
  simp only [List.length_append, List.length_map] at hlen
  omega

/-- What is completed comes forward. -/
theorem perm_forward (done dropped new rest : List Ticket) :
    (done ++ dropped ++ (new ++ rest)).Perm (done ++ new ++ dropped ++ rest) := by
  have h : (dropped ++ (new ++ rest)).Perm (new ++ (dropped ++ rest)) := by
    rw [← List.append_assoc, ← List.append_assoc]
    exact List.perm_append_comm.append_right rest
  simpa only [List.append_assoc] using h.append_left done

/-- A worker that is gone has nothing. -/
theorem outstanding_of_gone (h : Accounted s b) (hg : s.isWorkerGone = true) : s.outstanding = [] := by
  cases hw : s.worker with
  | none => simp [Session.outstanding, hw]
  | some w =>
    obtain ⟨own, work, hc⟩ := h.coupled
    have hp : w.phase = .stopped := by
      simp only [Session.isWorkerGone, hw, Delivery.isStopped] at hg
      split at hg
      · assumption
      · cases hg
    have hq := (hc.manned w hw).sound.stopped hp
    simp [Session.outstanding_of hw, Worker.outstanding, hp, hq, Delivery.held, Delivery.queued]

/-- A flush that has been reached leaves nothing outstanding. -/
theorem outstanding_of_reached {own work : Line} (hc : Coupled s.stance own work b.call)
    {next : AfterFlush} {w : Worker} (hwait : s.wait = .flush next) (hw : s.worker = some w)
    (hf : w.flushed = true) : s.outstanding = [] := by
  obtain ⟨hq, hp⟩ := (hc.manned w hw).shape.reached next hwait hf
  rw [Session.outstanding_of hw, Worker.outstanding, hq]
  rcases hp with hp | hp <;> rw [hp] <;> rfl

/-- A move of the worker settles what it completes. -/
theorem moves (h : Accounted s b) {w : Worker} {gone : List Message} {r : Delivery × List Deed}
    (hw : s.worker = some w) (hr : Delivery.Advances ⟨w, s.shared⟩ gone r)
    (hc : ∃ own work, Coupled
      ({ s with worker := some r.1.worker, shared := r.1.shared } : Session).stance own work b.call) :
    Accounted { s with worker := some r.1.worker, shared := r.1.shared }
      { b with completed := b.completed ++ completions r.2 } := by
  obtain ⟨own, work, hc⟩ := hc
  have hperm : ((completions r.2).map Prod.fst ++ r.1.worker.outstanding).Perm s.outstanding := by
    rw [Session.outstanding_of hw]
    exact hr.conserves
  have hnil : s.outstanding = [] → r.1.worker.outstanding = [] := fun hn => by
    rw [hn] at hperm
    exact (List.append_eq_nil_iff.mp hperm.eq_nil).2
  refine ⟨⟨own, work, hc⟩, ?_, ?_, ?_, ?_, ?_, ?_, ?_⟩
  · simp only [List.map_append]
    calc (b.accepted.map (·.ticket))
      _ |>.Perm (b.completed.map Prod.fst ++ b.dropped ++ s.outstanding) := h.tickets
      _ |>.Perm (b.completed.map Prod.fst ++ b.dropped ++
            ((completions r.2).map Prod.fst ++ r.1.worker.outstanding)) :=
          hperm.symm.append_left _
      _ |>.Perm (b.completed.map Prod.fst ++ (completions r.2).map Prod.fst ++ b.dropped ++
            r.1.worker.outstanding) := perm_forward _ _ _ _
  · rw [List.countP_append, ← h.acknowledged]
    exact congrArg Counters.acknowledged hr.counters
  · rw [List.countP_append, ← h.failed]
    exact congrArg Counters.failed hr.counters
  · have hsent : r.1.shared.counters.sent = s.shared.counters.sent := by rw [hr.counters]; rfl
    exact hsent.trans h.sent
  · -- a worker that has stopped does not move
    intro hd
    obtain ⟨w', hw', hp⟩ := h.dropped hd
    obtain rfl : w = w' := Option.some.inj (hw.symm.trans hw')
    have hstay := hr.alive hp
    refine ⟨r.1.worker, rfl, ?_⟩
    rw [hstay]
    exact hp
  · rintro (hrepose | hcall)
    · rcases hrepose with ⟨next, w', hwait, hw', hf⟩ | hfinish
      · refine ⟨outstanding_of_reached hc hwait hw' hf, ?_⟩
        by_contra hd
        obtain ⟨w₀, hw₀, hp⟩ := h.dropped hd
        obtain rfl : w = w₀ := Option.some.inj (hw.symm.trans hw₀)
        have hstay := hr.alive hp
        have hw'' : w = w' := by
          have := Option.some.inj hw'
          rwa [hstay] at this
        exact hd (h.rests (Or.inl (Or.inl ⟨next, w, hwait, hw, hw'' ▸ hf⟩))).2
      · obtain ⟨ho, hd⟩ := h.rests (Or.inl (Or.inr hfinish))
        exact ⟨hnil ho, hd⟩
    · obtain ⟨ho, hd⟩ := h.rests (Or.inr hcall)
      exact ⟨hnil ho, hd⟩
  · intro hl
    exact (h.closed hl).imp_right fun hrest => ⟨hrest.1, hnil hrest.2⟩

/-- Of its worker a session that rests knows only whether it is flushed. -/
theorem rests_of_flushed {w w' : Worker} (hw : s.worker = some w) {call : Option Call}
    (h : ({ s with worker := some w' } : Session).stance.Rests call)
    (hf : w'.flushed = w.flushed) : s.stance.Rests call := by
  refine h.imp_left fun hr => hr.imp_left ?_
  rintro ⟨next, w'', hwait, hw'', hflushed⟩
  obtain rfl : w' = w'' := Option.some.inj hw''
  exact ⟨next, w, hwait, hw, hf ▸ hflushed⟩

/-- A send that has come up to the queue is accounted for, be it queued,
abandoned, or left to wait for room. -/
theorem came_up (h : Accounted s b) {s' : Session} {b' : Daybook} {failed : Nat}
    (hc : ∃ own work, Coupled s'.stance own work b'.call) (hl : s'.lifecycle = .inTransaction)
    (hr : ¬ s'.stance.Rests b'.call) (hk : s.Counts s' failed)
    (htickets : (b'.accepted.map (·.ticket)).Perm
      (b'.completed.map Prod.fst ++ b'.dropped ++ s'.outstanding))
    (hok : b'.completed.countP (·.2.isOk) = b.completed.countP (·.2.isOk))
    (hfailed : b'.completed.countP (!·.2.isOk) = b.completed.countP (!·.2.isOk) + failed)
    (hlength : b'.accepted.length + s'.wait.crowd = b.accepted.length + 1)
    (hdropped : b'.dropped ≠ [] → ∃ w, s'.worker = some w ∧ w.phase = .stopped) :
    Accounted s' b' where
  coupled := hc
  tickets := htickets
  acknowledged := by rw [hk.2.1, h.acknowledged, hok]
  failed := by rw [hk.2.2, h.failed, hfailed]
  sent := by
    have hsent := hk.1
    have hbefore := h.sent
    omega
  dropped := hdropped
  rests := fun hrests => absurd hrests hr
  closed := fun hclosed => by
    rw [hl] at hclosed
    cases hclosed

/-- What concerns no send changes no account. -/
theorem onward (h : Accounted s b) {s' : Session} {call' : Option Call}
    (hc : ∃ own work, Coupled s'.stance own work call') (hw : SameLoad s.worker s'.worker)
    (hcrowd : s'.wait.crowd = s.wait.crowd) (hk : s.shared.counters.SameSends s'.shared.counters)
    (hr : s'.stance.Rests call' → s.stance.Rests b.call ∨ s.worker = none)
    (hl : s'.lifecycle = .closed → s'.wait = .drain ∨ (s'.wait = .nothing ∧
      ((s.lifecycle = .closed ∧ s.wait = .nothing) ∨ s.isWorkerGone = true))) :
    Accounted s' { b with call := call' } := by
  have ho : s'.outstanding = s.outstanding := hw.outstanding
  refine ⟨hc, ?_, hk.acknowledged.trans h.acknowledged, hk.failed.trans h.failed, ?_, ?_, ?_, ?_⟩
  · rw [ho]
    exact h.tickets
  · rw [hk.sent, hcrowd]
    exact h.sent
  · intro hd
    obtain ⟨w, hw', hp⟩ := h.dropped hd
    rw [hw'] at hw
    generalize s'.worker = wk at hw
    cases hw with
    | some _ w' hp' => exact ⟨w', rfl, hp'.trans hp⟩
  · intro hrests
    rw [ho]
    rcases hr hrests with hrest | hnone
    · exact h.rests hrest
    · refine ⟨by rw [Session.outstanding, hnone]; rfl, ?_⟩
      by_contra hd
      obtain ⟨w, hw', -⟩ := h.dropped hd
      rw [hnone] at hw'
      cases hw'
  · intro hclosed
    rw [ho]
    refine (hl hclosed).imp_right fun hrest => ⟨hrest.1, ?_⟩
    rcases hrest.2 with ⟨hbefore, hnothing⟩ | hgone
    · rcases h.closed hbefore with hdrain | ⟨-, hnil⟩
      · rw [hnothing] at hdrain
        cases hdrain
      · exact hnil
    · exact h.outstanding_of_gone hgone

/-- **Every event keeps the sends accounted for.** -/
theorem step (h : Accounted s b) {e : Event} (hne : e ≠ .abandoned) :
    Accounted (s.step e).1 (b.step s e) := by
  obtain ⟨own, work, hc⟩ := h.coupled
  have hc' := Daybook.coupled_step hc hne
  have hstep := Daybook.steps hc (fun hl => (h.closed hl).symm.imp_left And.left) hne
  generalize (s.step e).1 = s' at hc' hstep
  generalize b.step s e = b' at hc' hstep
  cases hstep with
  | onward s' call' hw hcrowd hk hr hl => exact h.onward hc' hw hcrowd hk hr hl
  | queued s' x p w call' hm hw hp hw' hl hwait hk hr =>
    have ho : s'.outstanding = s.outstanding ++ [x.ticket] := by
      rw [Session.outstanding_of hw', Session.outstanding_of hw, ← hm.1]
      simp [Worker.outstanding, Stance.queue, Delivery.queued_append, Delivery.queued]
    refine h.came_up hc' hl hr hk ?_ rfl rfl (by simp [hwait, Wait.crowd]) fun hd => ?_
    · rw [ho, ← List.append_assoc]
      simpa using h.tickets.append_right [x.ticket]
    · obtain ⟨w', hwk, hstop⟩ := h.dropped hd
      obtain rfl : w = w' := Option.some.inj (hw.symm.trans hwk)
      exact absurd hstop hp
  | waits s' p call' hw hl hwait hk hr =>
    have ho : s'.outstanding = s.outstanding := by rw [Session.outstanding, hw, Session.outstanding]
    refine h.came_up hc' hl hr hk ?_ rfl rfl (by simp [hwait, Wait.crowd]) ?_
    · rw [ho]
      exact h.tickets
    · rw [hw]
      exact h.dropped
  | abandoned s' x p call' hm hw hl hwait hk hr =>
    have ho : s'.outstanding = s.outstanding := by rw [Session.outstanding, hw, Session.outstanding]
    refine h.came_up hc' hl hr hk ?_ ?_ ?_ (by simp [hwait, Wait.crowd]) ?_
    · rw [ho, hm.1]
      simp only [List.map_append, List.map_cons, List.map_nil]
      calc (b.accepted.map (·.ticket)) ++ [x.ticket]
        _ |>.Perm (b.completed.map Prod.fst ++ b.dropped ++ s.outstanding ++ [x.ticket]) :=
            h.tickets.append_right _
        _ |>.Perm (b.completed.map Prod.fst ++ b.dropped ++ ([x.ticket] ++ s.outstanding)) := by
            rw [List.append_assoc]
            exact List.perm_append_comm.append_left _
        _ |>.Perm _ := perm_forward _ _ _ _
    · rw [List.countP_append]
      rfl
    · rw [List.countP_append]
      rfl
    · rw [hw]
      exact h.dropped
  | moves w gone r hw hr he => exact h.moves hw hr hc'
  | drains w hw hp hq =>
    have hnil : s.outstanding = [] := by
      rw [Session.outstanding_of hw, Worker.outstanding, hp, hq]
      rfl
    have hnil' : ({ s with worker := some { w with phase := .stopped } } : Session).outstanding = [] := by
      rw [Session.outstanding_of rfl, Worker.outstanding, hq]
      rfl
    refine ⟨hc', ?_, h.acknowledged, h.failed, h.sent, fun hd => ⟨_, rfl, rfl⟩, ?_, ?_⟩
    · rw [hnil', ← hnil]
      exact h.tickets
    · intro hrests
      have hbefore : s.stance.Rests b.call := rests_of_flushed hw hrests rfl
      exact ⟨hnil', (h.rests hbefore).2⟩
    · exact fun hl => (h.closed hl).imp_right fun hrest => ⟨hrest.1, hnil'⟩
  | kills w wait call' hw he =>
    have hnil' : ({ s with wait := wait, worker := some { w with queue := [], phase := .stopped } } :
        Session).outstanding = [] := by
      rw [Session.outstanding_of rfl]
      rfl
    refine ⟨hc', ?_, h.acknowledged, h.failed, ?_, fun _ => ⟨_, rfl, rfl⟩, ?_, ?_⟩
    · rw [hnil', List.append_nil, ← List.append_assoc]
      exact h.tickets
    · rcases he with ⟨-, rfl, -⟩ | ⟨-, hdrain, rfl, -⟩
      · exact h.sent
      · have hbefore := h.sent
        rw [hdrain] at hbefore
        exact hbefore
    · intro hrests
      refine ⟨hnil', ?_⟩
      rcases he with ⟨-, rfl, rfl⟩ | ⟨-, -, rfl, hclose⟩
      · have hbefore : s.stance.Rests b.call := rests_of_flushed hw hrests rfl
        obtain ⟨ho, hd⟩ := h.rests hbefore
        simp only [ho, hd, List.append_nil]
      · -- a close flushes nothing
        rcases hrests with hr | ⟨-, op, lc, r, hcall, hf⟩
        · exact absurd hr (not_reposes (by simp [Session.stance]) (by simp [Session.stance]))
        · obtain rfl := hclose op lc _ hcall
          simp [Operation.Flushes] at hf
    · intro hl
      rcases he with ⟨-, rfl, -⟩ | ⟨-, -, rfl, -⟩
      · exact (h.closed hl).imp_right fun hrest => ⟨hrest.1, hnil'⟩
      · exact Or.inr ⟨rfl, hnil'⟩

/-- **A run keeps the sends accounted for.** -/
theorem run (h : Accounted s b) : ∀ {es : List Event}, .abandoned ∉ es →
    Accounted (s.run es).1 (b.run s es) := by
  intro es
  induction es generalizing s b with
  | nil => exact fun _ => h
  | cons e es ih =>
    intro hes
    simp only [List.mem_cons, not_or] at hes
    exact ih (h.step fun he => hes.1 he.symm) hes.2

/-- After a flush every send is acknowledged or has failed. -/
theorem settled (h : Accounted s b) {op : Operation} {lc : Lifecycle} {r : Report}
    (hcall : b.call = some ⟨op, lc, some (.ok r)⟩) (hf : op.Flushes lc) :
    s.shared.counters.sent = s.shared.counters.acknowledged + s.shared.counters.failed := by
  obtain ⟨own, work, hc⟩ := h.coupled
  have hwait : s.wait = .nothing := by
    by_contra hw
    obtain ⟨op', lc', hcall', -⟩ := hc.running hw
    rw [hcall] at hcall'
    cases hcall'
  obtain ⟨ho, hd⟩ := h.rests (Or.inr ⟨hwait, op, lc, r, hcall, hf⟩)
  have hsent := h.sent
  have hlen := h.length
  simp only [hwait, Wait.crowd, ho, hd, List.length_nil] at hsent hlen
  omega

/-- Never are more sends acknowledged or failed than were sent. -/
theorem counted (h : Accounted s b) :
    s.shared.counters.acknowledged + s.shared.counters.failed ≤ s.shared.counters.sent := by
  have hsent := h.sent
  have hlen := h.length
  omega

/-- A send that was accepted once was completed once, or it was given up or is
outstanding. -/
theorem once (h : Accounted s b) (hd : (b.accepted.map (·.ticket)).Nodup) :
    (b.completed.map Prod.fst).Nodup ∧ ∀ x ∈ b.accepted,
      (x.ticket ∈ b.completed.map Prod.fst ∧ x.ticket ∉ b.dropped ∧ x.ticket ∉ s.outstanding) ∨
      (x.ticket ∉ b.completed.map Prod.fst ∧ (x.ticket ∈ b.dropped ∨ x.ticket ∈ s.outstanding)) := by
  have hnodup := h.tickets.nodup_iff.mp hd
  rw [List.append_assoc] at hnodup
  obtain ⟨hdone, -, hdisjoint⟩ := List.nodup_append.mp hnodup
  refine ⟨hdone, fun x hx => ?_⟩
  have hmem := h.tickets.mem_iff.mp (List.mem_map_of_mem hx)
  rw [List.append_assoc, List.mem_append] at hmem
  by_cases hin : x.ticket ∈ b.completed.map Prod.fst
  · left
    have hout : x.ticket ∉ b.dropped ++ s.outstanding := fun hmem => hdisjoint _ hin _ hmem rfl
    rw [List.mem_append, not_or] at hout
    exact ⟨hin, hout⟩
  · right
    exact ⟨hin, List.mem_append.mp (hmem.resolve_left hin)⟩

/-- Sends are given up only when the worker dies or is killed by a close, and
then all that it has. -/
theorem gives_up (h : Accounted s b) {e : Event} (hne : e ≠ .abandoned) :
    (b.step s e).dropped = b.dropped ∨
      ((e = .died ∨ (e = .outwaited ∧ s.wait = .drain)) ∧
        (b.step s e).dropped = b.dropped ++ s.outstanding ∧
        (b.step s e).completed = b.completed ∧ (s.step e).1.outstanding = []) := by
  obtain ⟨own, work, hc⟩ := h.coupled
  have hstep := Daybook.steps hc (fun hl => (h.closed hl).symm.imp_left And.left) hne
  generalize (s.step e).1 = s' at hstep
  generalize b.step s e = b' at hstep
  cases hstep with
  | kills w wait call' hw he =>
    refine Or.inr ⟨?_, rfl, rfl, rfl⟩
    rcases he with ⟨he, -⟩ | ⟨he, hwait, -⟩
    · exact Or.inl he
    · exact Or.inr ⟨he, hwait⟩
  | _ => exact Or.inl rfl

/-- When the worker signals a flush, everything that was sent is completed. -/
theorem signalled (h : Accounted s b) {e : Event} (hne : e ≠ .abandoned) {w w' : Worker}
    (hw : s.worker = some w) (hbefore : w.flushed = false)
    (hw' : (s.step e).1.worker = some w') (hafter : w'.flushed = true) :
    (s.step e).1.outstanding = [] ∧ (b.step s e).dropped = [] := by
  have h' := h.step hne
  obtain ⟨own, work, hc⟩ := h.coupled
  have hstep := Daybook.steps hc (fun hl => (h.closed hl).symm.imp_left And.left) hne
  apply h'.rests
  generalize (s.step e).1 = s' at hstep hw'
  generalize b.step s e = b' at hstep
  have stays : w' = w → ¬ w'.flushed = true := fun hww hf => by
    rw [hww, hbefore] at hf
    cases hf
  cases hstep with
  | onward s' call' hload =>
    rw [hw, hw'] at hload
    cases hload with
    | some _ _ _ _ hf =>
      rw [hbefore] at hf
      cases hf hafter
  | queued s' x p w₀ call' hm hw₀ hp hw₀' =>
    obtain rfl : w = w₀ := Option.some.inj (hw.symm.trans hw₀)
    rw [← Option.some.inj (hw₀'.symm.trans hw')] at hafter
    exact absurd hafter (by simp [Stance.queue, hbefore])
  | waits s' p call' hsame => exact absurd hafter (stays (Option.some.inj (hw'.symm.trans (hsame.trans hw))))
  | abandoned s' x p call' hm hsame =>
    exact absurd hafter (stays (Option.some.inj (hw'.symm.trans (hsame.trans hw))))
  | moves w₀ gone r hw₀ hr he =>
    obtain rfl : w = w₀ := Option.some.inj (hw.symm.trans hw₀)
    obtain rfl : r.1.worker = w' := Option.some.inj hw'
    obtain ⟨front, hfront⟩ := (hr.signal hafter).resolve_left (by simp [hbefore])
    have hmem : Message.barrier .flush ∈ w.agenda := by
      have hagenda := hr.agenda
      rw [hfront] at hagenda
      simp [show w.agenda = _ from hagenda]
    have hlive : w.phase ≠ .stopped := by
      intro hp
      refine stays ?_ hafter
      rw [hr.alive hp]
    -- a flush is ahead only while the session waits for it
    obtain ⟨reset, ps, hshape, -⟩ := (hc.manned w hw).shape.agenda hlive
    rw [hshape] at hmem
    rcases flushing_cases s.stance.wait w.flushed with hnone | ⟨-, ⟨next, hwait⟩, -⟩
    · exfalso
      rw [hnone] at hmem
      cases reset <;> simp [resetting] at hmem
    · exact Or.inl (Or.inl ⟨next, r.1.worker, hwait, rfl, hafter⟩)
  | drains w₀ hw₀ =>
    obtain rfl : w = w₀ := Option.some.inj (hw.symm.trans hw₀)
    rw [← Option.some.inj hw'] at hafter
    exact absurd hafter (by simp [hbefore])
  | kills w₀ wait call' hw₀ =>
    obtain rfl : w = w₀ := Option.some.inj (hw.symm.trans hw₀)
    rw [← Option.some.inj hw'] at hafter
    exact absurd hafter (by simp [hbefore])

end Accounted

end FencedLog
