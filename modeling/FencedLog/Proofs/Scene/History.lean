/-
# A scene and everything that has become of its sends

Beside a scene stand the daybook of its owner and the receipts of all records
that the broker has appended for the worker, whether or not the worker has
heard of it. An act adds to them what it says about the sends, and together
they never say more of a send than that one record was appended for it, or that
none was (`Scene.Tells`).

Key definitions: `Scene.event?`, `Scene.appended`, `History`, `Scene.Transient`,
`Scene.Tells`.
Key theorems: `Scene.agrees_act`, `Scene.tells`.
-/
import FencedLog.Proofs.Scene.Certain
import FencedLog.Proofs.Session.Accounted

namespace FencedLog

namespace Scene

/-- The event of the session that an act is, if it is one. -/
def event? (σ : Scene) : Act → Option Event
  | .call operation => some (.called operation)
  | .hear .own =>
    match σ.own with
    | .replied answer => some (.answered answer)
    | _ => none
  | .hear .work =>
    match σ.work with
    | .replied answer => some (.delivered answer)
    | _ => none
  | .wake => some .woken
  | .outwait => some .outwaited
  | .round visible => some (.round visible)
  | .drain => some .drained
  | .die => some .died
  | .others _ | .reach .. | .refuse .. => none

/-- The records that an act appends for the worker. -/
def appended (σ : Scene) : Act → List Receipt
  | .reach .work now _ =>
    match σ.work, σ.session.worker with
    | .sent q, some w => w.landed (.replied (σ.chronicle.broker.handle now q).2)
    | _, _ => []
  | _ => []

/-- The acknowledgments that an act brings. -/
def acknowledges (σ : Scene) : Act → List (Ticket × Placement)
  | .hear .work => σ.landed.map Receipt.ack
  | _ => []

/-- The answer to a request of the worker is lost only to an error that may be
tried again. -/
def Transient (_ : Scene) : Act → Prop
  | .reach .work _ (some e) => e.isRetriable = true
  | _ => True

end Scene

/-- A scene, what its owner knows of it, and all records that were appended for
its worker. -/
structure History where
  scene : Scene
  book : Daybook
  entered : List Receipt

namespace History

def start (broker : BrokerConfig) (config : SessionConfig) : History :=
  ⟨.start broker config, .empty, []⟩

def act (h : History) (a : Act) : History where
  scene := h.scene.act a
  book := (h.scene.event? a).elim h.book (h.book.step h.scene.session)
  entered := h.entered ++ h.scene.appended a

def run (h : History) : List Act → History
  | [] => h
  | a :: as => (h.act a).run as

theorem run_append (h : History) (as bs : List Act) : h.run (as ++ bs) = (h.run as).run bs := by
  induction as generalizing h with
  | nil => rfl
  | cons a as ih => exact ih (h.act a)

theorem run_scene (h : History) (as : List Act) : (h.run as).scene = h.scene.run as := by
  induction as generalizing h with
  | nil => rfl
  | cons a as ih => exact ih (h.act a)

end History

namespace Scene

variable {σ τ : Scene} {b : Daybook} {a : Act} {e : Event}

/-! ### The scene and the daybook -/

/-- The owner knows of the running call, and of the sends of the chapter. -/
structure Agrees (σ : Scene) (b : Daybook) : Prop where
  call : σ.call = b.call
  sends : σ.chapter.sends ⊆ b.accepted

theorem agrees_feel (h : σ.Agrees b) (x : Effect) : (σ.feel x).Agrees (b.feel x) := by
  refine ⟨Daybook.call_feel h.call x, ?_⟩
  rcases x with q | ⟨q | ⟨t, c | c⟩ | t⟩ | r | _
  case returned =>
    simp only [feel, Daybook.feel, returned, Daybook.returned, h.call]
    cases b.call with
    | none => exact h.sends
    | some call =>
      simp only
      obtain ⟨op, lc, result⟩ := call
      have grows : σ.chapter.sends ⊆ b.accepted := h.sends
      rcases op with _ | _ | _ | _ | ⟨draft, ticket, present⟩ | _ | _ | _ | _ <;> rcases r with err | r
      all_goals first
        | exact grows
        | exact List.nil_subset _
        | exact List.append_subset.mpr ⟨fun x hx => List.mem_append_left _ (grows hx),
            List.subset_append_right _ _⟩
  all_goals exact h.sends

theorem agrees_perform (h : σ.Agrees (b.called σ.session e)) :
    (σ.perform e).Agrees (b.step σ.session e) := by
  have fold : ∀ (effects : List Effect) {σ : Scene} {b : Daybook}, σ.Agrees b →
      (effects.foldl feel σ).Agrees (effects.foldl Daybook.feel b) := by
    intro effects
    induction effects with
    | nil => exact fun h => h
    | cons x xs ih => exact fun h => ih (agrees_feel h x)
  exact fold _ ⟨h.call, h.sends⟩

theorem agrees_hangUp (h : σ.Agrees b) : σ.hangUp.Agrees b := by
  unfold hangUp
  split
  · exact ⟨h.call, h.sends⟩
  · exact h

theorem session_hangUp (σ : Scene) : σ.hangUp.session = σ.session := by
  unfold hangUp
  split <;> rfl

theorem session_perform (σ : Scene) (e : Event) : (σ.perform e).session = (σ.session.step e).1 := by
  have fold : ∀ (effects : List Effect) (σ : Scene), (effects.foldl feel σ).session = σ.session := by
    intro effects
    induction effects with
    | nil => exact fun _ => rfl
    | cons x xs ih => exact fun σ => (ih _).trans (Daybook.session_feel σ x)
  exact fold _ _

theorem chronicle_perform (σ : Scene) (e : Event) : (σ.perform e).chronicle = σ.chronicle := by
  have feels : ∀ (σ : Scene) (x : Effect), (σ.feel x).chronicle = σ.chronicle := by
    intro σ x
    rcases x with q | ⟨q | ⟨t, c | c⟩ | t⟩ | r | _
    case returned =>
      simp only [feel, returned]
      split
      · rfl
      · split <;> rfl
    all_goals rfl
  have fold : ∀ (effects : List Effect) (σ : Scene),
      (effects.foldl feel σ).chronicle = σ.chronicle := by
    intro effects
    induction effects with
    | nil => exact fun _ => rfl
    | cons x xs ih => exact fun σ => (ih _).trans (feels σ x)
  exact fold _ _

theorem chronicle_hangUp (σ : Scene) : σ.hangUp.chronicle = σ.chronicle := by
  unfold hangUp
  split <;> rfl

theorem session_act (σ : Scene) (a : Act) : (σ.act a).session =
    (σ.event? a).elim σ.session fun e => (σ.session.step e).1 := by
  cases a with
  | call op =>
    simp only [act, event?, Option.elim]
    split
    · exact session_perform _ _
    · rename_i hw
      rw [(Session.called_busy hw .empty).1]
  | others op => rfl
  | reach side => cases side <;> simp only [act, event?, Option.elim] <;> split <;> rfl
  | refuse side => cases side <;> simp only [act, event?, Option.elim] <;> split <;> rfl
  | hear side =>
    cases side with
    | own =>
      cases hl : σ.own <;> simp only [act, event?, hl, Option.elim]
      exact session_perform _ _
    | work =>
      cases hl : σ.work <;> simp only [act, event?, hl, Option.elim]
      exact session_perform _ _
  | wake => exact session_perform _ _
  | outwait => exact (session_hangUp _).trans (session_perform _ _)
  | round visible => exact session_perform _ _
  | drain => exact session_perform _ _
  | die => exact (session_hangUp _).trans (session_perform _ _)

/-- An act keeps the daybook in agreement with the scene. -/
theorem agrees_act (h : σ.Agrees b) (a : Act) :
    (σ.act a).Agrees ((σ.event? a).elim b (b.step σ.session)) := by
  cases a with
  | call op =>
    simp only [act, event?, Option.elim]
    split
    · rename_i hw
      refine agrees_perform (σ := { σ with call := some ⟨op, σ.session.lifecycle, none⟩ }) ⟨?_, ?_⟩
      · simp only [Daybook.called, hw]
      · rw [Daybook.called_eq]
        exact h.sends
    · rename_i hw
      obtain ⟨hstep, hbook⟩ := Session.called_busy hw b
      rw [Daybook.step, hstep, hbook]
      exact h
  | others op => exact ⟨h.call, h.sends⟩
  | reach side now lost =>
    have hnote : ∀ (txn : Option Txn) (q : Request) (answer : Answer),
        (σ.chapter.note txn q answer).sends = σ.chapter.sends := by
      intro txn q answer
      unfold Chapter.note
      split <;> rfl
    cases side <;> simp only [act, event?, Option.elim] <;> split
    · exact ⟨h.call, h.sends⟩
    · exact h
    · refine ⟨h.call, ?_⟩
      simp only [reachWork, hnote]
      exact h.sends
    · exact h
  | refuse side =>
    cases side <;> simp only [act, event?, Option.elim] <;> split <;> exact ⟨h.call, h.sends⟩
  | hear side =>
    cases side with
    | own =>
      cases hl : σ.own <;> simp only [act, event?, hl, Option.elim]
      case replied answer => exact agrees_perform ⟨h.call, h.sends⟩
      all_goals exact h
    | work =>
      cases hl : σ.work <;> simp only [act, event?, hl, Option.elim]
      case replied answer => exact agrees_perform ⟨h.call, h.sends⟩
      all_goals exact h
  | wake => exact agrees_perform h
  | outwait => exact agrees_hangUp (agrees_perform h)
  | round visible => exact agrees_perform h
  | drain => exact agrees_perform h
  | die => exact agrees_hangUp (agrees_perform h)

/-- The broker changes when somebody else does something, and when a request
reaches it. -/
theorem chronicle_act (σ : Scene) {a : Act} (ho : ∀ op, a ≠ .others op)
    (hr : ∀ side now lost, a ≠ .reach side now lost) : (σ.act a).chronicle = σ.chronicle := by
  cases a with
  | call op =>
    simp only [act]
    split
    · exact chronicle_perform _ _
    · rfl
  | others op => exact absurd rfl (ho op)
  | reach side now lost => exact absurd rfl (hr side now lost)
  | refuse side => cases side <;> simp only [act] <;> split <;> rfl
  | hear side =>
    cases side <;> simp only [act] <;> split
    · exact chronicle_perform _ _
    · rfl
    · exact chronicle_perform _ _
    · rfl
  | wake => exact chronicle_perform _ _
  | outwait => exact (chronicle_hangUp _).trans (chronicle_perform _ _)
  | round visible => exact chronicle_perform _ _
  | drain => exact chronicle_perform _ _
  | die => exact (chronicle_hangUp _).trans (chronicle_perform _ _)

end Scene

/-! ### What an act says of the sends -/

/-- The tickets of a session whose records cannot have been appended. -/
def Session.unlanded (s : Session) (line : Line) : List Ticket :=
  s.worker.elim [] (·.unlanded line)

def Scene.unlanded (σ : Scene) : List Ticket := σ.session.unlanded σ.work

theorem Session.unlanded_of {s : Session} {w : Worker} (h : s.worker = some w) (line : Line) :
    s.unlanded line = w.unlanded line := by
  rw [unlanded, h]
  rfl

theorem SameLoad.unlanded {s s' : Session} (h : SameLoad s.worker s'.worker) (line : Line) :
    s'.unlanded line = s.unlanded line := by
  unfold Session.unlanded
  generalize s.worker = w at h
  generalize s'.worker = w' at h
  cases h with
  | none => rfl
  | start w hp hq => simp [Worker.unlanded, hp, hq, Phase.unlanded, Delivery.held, Delivery.queued]
  | some w w' hp hq => simp only [Option.elim, Worker.unlanded, hp, queued_eq, hq]

/-- What the records of a worker are completed with when it does not move is no
word on whether they were appended. -/
theorem Daybook.Step.unlanded {s s' : Session} {b b' : Daybook} {e : Event}
    (h : Daybook.Step s b e s' b') (hr : ∀ visible, e ≠ .round visible)
    (hd : ∀ answer, e ≠ .delivered answer) (line : Line) :
    ∃ new done, b'.accepted = b.accepted ++ new ∧ b'.completed = b.completed ++ done ∧
      acknowledged done = [] ∧ definites done = [] ∧
      (s'.unlanded line).Subperm (s.unlanded line ++ new.map (·.ticket)) := by
  have gone : ∀ {w : Worker}, s'.worker = some w → w.phase = .stopped → w.queue = [] →
      s'.unlanded line = [] := by
    intro w hw hp hq
    rw [Session.unlanded_of hw, Worker.unlanded, hp, hq]
    rfl
  cases h with
  | onward s' call' hw =>
    refine ⟨[], [], by simp, by simp, rfl, rfl, ?_⟩
    rw [hw.unlanded, List.map_nil, List.append_nil]
  | queued s' x p w call' hm hw hp hw' =>
    refine ⟨[x], [], rfl, by simp, rfl, rfl, ?_⟩
    rw [Session.unlanded_of hw', Session.unlanded_of hw]
    simp only [Worker.unlanded, Stance.queue, Delivery.queued_append, Delivery.queued, hm.1,
      List.map_cons, List.map_nil, List.append_assoc]
    exact .refl _
  | waits s' p call' hw =>
    refine ⟨[], [], by simp, by simp, rfl, rfl, ?_⟩
    rw [Session.unlanded, hw, List.map_nil, List.append_nil]
    exact .refl _
  | abandoned s' x p call' hm hw =>
    refine ⟨[x], [(p.ticket, .error .abandoned)], rfl, rfl, rfl, rfl, ?_⟩
    rw [Session.unlanded, hw]
    exact (List.sublist_append_left _ _).subperm
  | moves w g r hw hadv he =>
    rcases he with ⟨visible, he, -⟩ | ⟨answer, he, -⟩
    · exact absurd he (hr visible)
    · exact absurd he (hd answer)
  | drains w hw hp hq =>
    refine ⟨[], [], by simp, by simp, rfl, rfl, ?_⟩
    rw [gone rfl rfl hq]
    exact List.nil_subperm
  | kills w wait call' hw =>
    refine ⟨[], [], by simp, by simp, rfl, rfl, ?_⟩
    rw [gone rfl rfl rfl]
    exact List.nil_subperm

/-- Only a worker that moves makes a request of its own. -/
theorem Session.step_silent {s : Session} {b : Daybook} {own work : Line} {e : Event}
    (hc : Coupled s.stance own work b.call) (hne : e ≠ .abandoned)
    (hr : ∀ visible, e ≠ .round visible) (hd : ∀ answer, e ≠ .delivered answer) (q : Request) :
    .deed (.request q) ∉ (s.step e).2 := by
  have own : OwnEvent e → .deed (.request q) ∉ (s.step e).2 := by
    intro he
    rcases turns_step hc he with ⟨hstep, -⟩ | ⟨op, lc, -, ht⟩
    · rw [hstep]
      exact List.not_mem_nil
    · unfold Turns at ht
      generalize (s.step e).2 = effects at ht
      generalize (s.step e).1.stance = v at ht
      cases ht <;> simp
  cases e with
  | called op => exact own (Or.inl ⟨op, rfl⟩)
  | answered answer => exact own (Or.inr (Or.inl ⟨answer, rfl⟩))
  | woken => exact own (Or.inr (Or.inr rfl))
  | outwaited =>
    simp only [step, outwaited]
    split
    · cases hw : s.worker with
      | none => simp [deliver, hw, finished]
      | some w => simp [Scene.deliver_kill hw, finished]
    · exact List.not_mem_nil
  | abandoned => exact absurd rfl hne
  | round visible => exact absurd rfl (hr visible)
  | delivered answer => exact absurd rfl (hd answer)
  | drained =>
    simp only [step]
    split
    · exact List.not_mem_nil
    · cases hw : s.worker <;> simp [deliver, hw]
  | died =>
    simp only [step]
    cases hw : s.worker with
    | none => simp [deliver, hw]
    | some w => simp [Scene.deliver_kill hw]

namespace Scene

/-- What an act says of the sends: which ones are accepted and completed, and
that what is now known of a send was open before. -/
structure Tells (σ : Scene) (a : Act) (b b' : Daybook) (new : List Sent)
    (done : List (Ticket × Completion)) : Prop where
  accepted : b'.accepted = b.accepted ++ new
  completed : b'.completed = b.completed ++ done
  acks : acknowledged done = σ.acknowledges a
  tickets : (definites done ++ ((σ.appended a).map Receipt.ticket ++ (σ.act a).unlanded)).Subperm
    (σ.unlanded ++ new.map (·.ticket))

variable {σ : Scene} {b : Daybook} {a : Act} {e : Event}

theorem tells_nothing (ha : σ.acknowledges a = [])
    (h : ((σ.appended a).map Receipt.ticket ++ (σ.act a).unlanded).Subperm σ.unlanded) :
    ∃ new done, σ.Tells a b b new done :=
  ⟨[], [], by simp, by simp, ha.symm, by simpa [definites] using h⟩

theorem work_perform (h : ∀ q, .deed (.request q) ∉ (σ.session.step e).2) :
    (σ.perform e).work = σ.work := by
  have fold : ∀ (effects : List Effect) (σ : Scene), (∀ q, .deed (.request q) ∉ effects) →
      (effects.foldl feel σ).work = σ.work := by
    intro effects
    induction effects with
    | nil => exact fun _ _ => rfl
    | cons x xs ih =>
      intro σ hx
      refine (ih _ fun q hq => hx q (List.mem_cons_of_mem _ hq)).trans ?_
      rcases x with q | ⟨q | ⟨t, c | c⟩ | t⟩ | r | _
      case deed.request => exact absurd List.mem_cons_self (hx q)
      case returned =>
        simp only [feel, returned]
        split
        · rfl
        · split <;> rfl
      all_goals rfl
  exact fold _ _ h

/-- To hang up a line whose worker is gone changes nothing. -/
theorem unlanded_hangUp (σ : Scene) : σ.hangUp.unlanded = σ.unlanded := by
  unfold hangUp
  split
  · rename_i hg
    unfold unlanded Session.unlanded
    cases hw : σ.session.worker with
    | none => rfl
    | some w =>
      have hp : w.phase = .stopped := by
        simp only [Session.isWorkerGone, hw, Delivery.isStopped] at hg
        split at hg
        · assumption
        · cases hg
      simp only [Option.elim, Worker.unlanded, hp, Phase.unlanded]
  · rfl

theorem unlanded_perform (h : ∀ q, .deed (.request q) ∉ (σ.session.step e).2) :
    (σ.perform e).unlanded = (σ.session.step e).1.unlanded σ.work := by
  rw [unlanded, session_perform, work_perform h]

/-- The worker does not move. -/
theorem tells_silent (hc : FencedLog.Coupled σ.session.stance σ.own σ.work b.call)
    (hb : Accounted σ.session b) (hne : e ≠ .abandoned) (hr : ∀ visible, e ≠ .round visible)
    (hd : ∀ answer, e ≠ .delivered answer) (ha : σ.acknowledges a = []) (hnone : σ.appended a = [])
    (hact : (∀ q, .deed (.request q) ∉ (σ.session.step e).2) →
      (σ.act a).unlanded = (σ.session.step e).1.unlanded σ.work) :
    ∃ new done, σ.Tells a b (b.step σ.session e) new done := by
  obtain ⟨new, done, hnew, hdone, hacks, hdef, hsub⟩ :=
    (Daybook.steps hc (fun hl => (hb.closed hl).symm.imp_left And.left) hne).unlanded hr hd σ.work
  refine ⟨new, done, hnew, hdone, hacks.trans ha.symm, ?_⟩
  rw [hdef, hnone, hact (Session.step_silent hc hne hr hd)]
  exact hsub

/-- The worker moves. -/
theorem tells_moved {w : Worker} (hw : σ.session.worker = some w)
    {f : Delivery → Delivery × List Deed} (he : σ.session.step e = σ.session.deliver f)
    (hbook : b.called σ.session e = b) (hnone : σ.appended a = [])
    (hsession : (σ.act a).session = (σ.session.step e).1)
    (hacks : acks (f ⟨w, σ.session.shared⟩).2 = σ.acknowledges a)
    (hsub : (definites (completions (f ⟨w, σ.session.shared⟩).2) ++
      (Delivery.held (f ⟨w, σ.session.shared⟩).1.worker.phase ++
        Delivery.queued (f ⟨w, σ.session.shared⟩).1.worker.queue)).Subperm (w.unlanded σ.work)) :
    ∃ new done, σ.Tells a b (b.step σ.session e) new done := by
  have hstep : σ.session.deliver f = ({ σ.session with
      worker := some (f ⟨w, σ.session.shared⟩).1.worker
      shared := (f ⟨w, σ.session.shared⟩).1.shared }, (f ⟨w, σ.session.shared⟩).2.map .deed) := by
    simp only [Session.deliver, hw]
  have hb : b.step σ.session e = { b with
      completed := b.completed ++ completions (f ⟨w, σ.session.shared⟩).2
      dropped := b.dropped ++ drops (f ⟨w, σ.session.shared⟩).2 } := by
    rw [Daybook.step, he, hstep, hbook, Daybook.foldl_deeds]
  rw [he, hstep] at hsession
  refine ⟨[], completions (f ⟨w, σ.session.shared⟩).2, ?_, ?_, ?_, ?_⟩
  · rw [hb, List.append_nil]
  · rw [hb]
  · rw [acknowledged_completions, hacks]
  · have hτ : (σ.act a).unlanded =
        (f ⟨w, σ.session.shared⟩).1.worker.unlanded (σ.act a).work := by
      rw [unlanded, Session.unlanded_of (by rw [hsession])]
    have hheld := (f ⟨w, σ.session.shared⟩).1.worker.phase.unlanded_sublist (σ.act a).work
    rw [hnone, hτ, unlanded, Session.unlanded_of hw, List.map_nil, List.map_nil, List.nil_append,
      List.append_nil]
    exact ((hheld.append_right _).append_left _).subperm.trans hsub

/-- A round of the worker. -/
theorem tells_round (σ : Scene) (b : Daybook) (visible : Nat) :
    ∃ new done, σ.Tells (.round visible) b (b.step σ.session (.round visible)) new done := by
  have he : ∀ s : Session, s.step (.round visible) = s.deliver (·.round visible) := fun _ => rfl
  have same : σ.session.step (.round visible) = (σ.session, []) →
      ∃ new done, σ.Tells (.round visible) b (b.step σ.session (.round visible)) new done := by
    intro hstep
    have hact : σ.act (.round visible) = σ := by
      simp only [act, perform, hstep, List.foldl]
    rw [Daybook.step, hstep]
    refine tells_nothing rfl ?_
    rw [hact]
    exact .refl _
  cases hw : σ.session.worker with
  | none => exact same (by rw [he, Session.deliver, hw])
  | some w =>
    rcases Delivery.unlanded_round ⟨w, σ.session.shared⟩ visible σ.work with hstay | ⟨hacks, hsub⟩
    · apply same
      simp only [he, Session.deliver, hw, hstay]
      rw [← hw]
      rfl
    · exact tells_moved (f := (·.round visible)) hw rfl rfl rfl (session_perform σ _) hacks hsub

/-- The worker hears an answer. -/
theorem tells_hear (hc : σ.Coupled) {answer : Answer} (hl : σ.work = .replied answer) (b : Daybook) :
    ∃ new done, σ.Tells (.hear .work) b (b.step σ.session (.delivered answer)) new done := by
  cases hw : σ.session.worker with
  | none =>
    have hidle := (hc.unmanned hw).2
    rw [hl] at hidle
    cases hidle
  | some w =>
    have hsession : (σ.act (.hear .work)).session = (σ.session.step (.delivered answer)).1 := by
      rw [session_act]
      simp only [event?, hl, Option.elim]
    refine tells_moved (f := (·.answered answer)) hw rfl rfl rfl hsession ?_ ?_
    · rw [acknowledges, landed_of_worker (w := w) hw, hl]
      exact Delivery.acks_answered ⟨w, σ.session.shared⟩ answer
    · rw [hl]
      exact Delivery.unlanded_answered ⟨w, σ.session.shared⟩ answer

/-- A request of the worker reaches the broker. -/
theorem tells_reach (hc : σ.Coupled) {now : Span} {lost : Option BrokerError}
    (hp : σ.Transient (.reach .work now lost)) (b : Daybook) :
    ∃ new done, σ.Tells (.reach .work now lost) b b new done := by
  refine tells_nothing rfl ?_
  cases hl : σ.work with
  | sent q =>
    obtain ⟨w, hw, -⟩ := hc.ordered hl
    have hw' : σ.session.worker = some w := hw
    have hlost : ∀ e, lost = some e → e.isRetriable = true := by
      rintro e rfl
      exact hp
    have hτ : (σ.act (.reach .work now lost)).unlanded =
        w.unlanded (reply (σ.chronicle.broker.handle now q).2 lost) := by
      simp only [act, hl]
      exact Session.unlanded_of hw' _
    rw [hτ, unlanded, Session.unlanded_of hw', hl]
    simp only [appended, hl, hw']
    exact w.lands q _ hlost
  | _ =>
    have hact : σ.act (.reach .work now lost) = σ := by simp only [act, hl]
    rw [hact, appended, hl]
    exact .refl _

/-- A request of the worker fails on the way. -/
theorem tells_refuse (σ : Scene) (e : BrokerError) (b : Daybook) :
    ∃ new done, σ.Tells (.refuse .work e) b b new done := by
  refine tells_nothing rfl ?_
  cases hl : σ.work with
  | sent q =>
    simp only [act, hl, appended, unlanded]
    unfold Session.unlanded
    cases σ.session.worker with
    | none => exact .refl _
    | some w =>
      have hall : w.phase.unlanded (.sent q) = Delivery.held w.phase :=
        w.phase.unlanded_of_not_isVague rfl
      simp only [Option.elim, Worker.unlanded, hall, List.map_nil, List.nil_append]
      exact ((w.phase.unlanded_sublist _).append_right _).subperm
  | _ =>
    have hact : σ.act (.refuse .work e) = σ := by simp only [act, hl]
    rw [hact]
    exact .refl _

/-- **Whatever happens, what is now known of a send was open before.** -/
theorem tells (hc : σ.Coupled) (hb : Accounted σ.session b) (hag : σ.Agrees b) (hp : σ.Transient a) :
    ∃ new done, σ.Tells a b ((σ.event? a).elim b (b.step σ.session)) new done := by
  have hc' : FencedLog.Coupled σ.session.stance σ.own σ.work b.call := hag.call ▸ hc
  have still : σ.acknowledges a = [] → σ.appended a = [] → (σ.act a).unlanded = σ.unlanded →
      ∃ new done, σ.Tells a b b new done := by
    intro ha hnone hact
    refine tells_nothing ha ?_
    rw [hnone, hact]
    exact .refl _
  cases a with
  | call op =>
    refine tells_silent hc' hb (by simp) (by simp) (by simp) rfl rfl fun hs => ?_
    simp only [act]
    split
    · exact unlanded_perform hs
    · rename_i hw
      rw [(Session.called_busy hw b).1]
      rfl
  | others op => exact still rfl rfl rfl
  | reach side now lost =>
    cases side with
    | own => exact still rfl rfl (by simp only [act]; split <;> rfl)
    | work => exact tells_reach hc hp b
  | refuse side err =>
    cases side with
    | own => exact still rfl rfl (by simp only [act]; split <;> rfl)
    | work => exact tells_refuse σ err b
  | hear side =>
    cases side with
    | own =>
      cases hl : σ.own with
      | replied answer =>
        simp only [event?, hl, Option.elim]
        refine tells_silent hc' hb (by simp) (by simp) (by simp) rfl rfl fun hs => ?_
        simp only [act, hl]
        exact unlanded_perform (σ := { σ with own := .idle }) hs
      | _ =>
        simp only [event?, hl, Option.elim]
        exact still rfl rfl (by simp only [act, hl])
    | work =>
      cases hl : σ.work with
      | replied answer =>
        simp only [event?, hl, Option.elim]
        exact tells_hear hc hl b
      | _ =>
        have hland : σ.landed = [] := by
          unfold landed Worker.landed
          rw [hl]
          split <;> rfl
        simp only [event?, hl, Option.elim]
        exact still (by rw [acknowledges, hland]; rfl) rfl (by simp only [act, hl])
  | wake => exact tells_silent hc' hb (by simp) (by simp) (by simp) rfl rfl unlanded_perform
  | outwait =>
    exact tells_silent hc' hb (by simp) (by simp) (by simp) rfl rfl fun hs =>
      (unlanded_hangUp _).trans (unlanded_perform hs)
  | round visible => exact tells_round σ b visible
  | drain => exact tells_silent hc' hb (by simp) (by simp) (by simp) rfl rfl unlanded_perform
  | die =>
    exact tells_silent hc' hb (by simp) (by simp) (by simp) rfl rfl fun hs =>
      (unlanded_hangUp _).trans (unlanded_perform hs)

end Scene
end FencedLog
