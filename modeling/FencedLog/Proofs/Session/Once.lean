/-
# Completions fire once, and a flush is a barrier

In every run of a session each accepted send is completed once, unless the
worker dies or is killed by a close that has waited long enough while it has
the send; then its future is resolved as abandoned, and its callback does not
run. A worker that acts on a flush has completed all that was posted before it
and nothing that was posted after. So after a flush, own or that of a commit or
abort, what was sent is acknowledged or has failed.

Key definitions: `deeds`, `World.heard`, `Account.Orderly`, `Session.Settled`.
Key theorems: `World.ends_act`, `Session.completes_once`.
-/
import FencedLog.Network.World
import FencedLog.Proofs.Scene.Handoff
import FencedLog.Proofs.Session.Accounted
import FencedLog.Proofs.World.Recovery

namespace FencedLog

/-! ### Callbacks and futures -/

/-- The deeds among the effects. -/
def deeds (effects : List Effect) : List Deed :=
  effects.filterMap fun
    | .deed d => some d
    | .asked _ | .returned _ | .disconnected => none

theorem deeds_append (xs ys : List Effect) : deeds (xs ++ ys) = deeds xs ++ deeds ys :=
  List.filterMap_append

namespace Daybook

/-- What is completed and given up is what the effects say. -/
theorem foldl_ends : ∀ (effects : List Effect) (b : Daybook),
    (effects.foldl feel b).completed = b.completed ++ completions (deeds effects) ∧
      (effects.foldl feel b).dropped = b.dropped ++ drops (deeds effects)
  | [], b => by simp [deeds, completions, drops]
  | x :: xs, b => by
    obtain ⟨hc, hd⟩ := foldl_ends xs (b.feel x)
    rw [List.foldl_cons, hc, hd]
    rcases x with q | ⟨q | ⟨t, c⟩ | t⟩ | r | _
    case returned =>
      simp only [feel, returned]
      split
      · exact ⟨rfl, rfl⟩
      · split <;> exact ⟨rfl, rfl⟩
    all_goals simp [feel, deeds, completions, drops]

theorem run_ends (s : Session) (b : Daybook) (es : List Event) :
    (b.run s es).completed = b.completed ++ completions (deeds (s.run es).2) ∧
      (b.run s es).dropped = b.dropped ++ drops (deeds (s.run es).2) := by
  induction es generalizing s b with
  | nil => simp [run, Session.run, deeds, completions, drops]
  | cons e es ih =>
    obtain ⟨hc, hd⟩ := ih (s.step e).1 (b.step s e)
    obtain ⟨hc', hd'⟩ := foldl_ends (s.step e).2 (b.called s e)
    have hcalled := called_eq b s e
    have hbc : (b.called s e).completed = b.completed := by rw [hcalled]
    have hbd : (b.called s e).dropped = b.dropped := by rw [hcalled]
    simp only [run, Session.run, deeds_append, completions_append, drops_append]
    rw [hc, hd, step, hc', hd', hbc, hbd, List.append_assoc, List.append_assoc]
    exact ⟨rfl, rfl⟩

end Daybook

namespace World

/-- The completions that a kind of listener hears of. -/
def heard (l : Listener) (done : List (Ticket × Completion)) : List (Nat × Completion) :=
  done.filterMap fun x => if x.1.listener = l then some (x.1.number, x.2) else none

theorem heard_append (l : Listener) (xs ys : List (Ticket × Completion)) :
    heard l (xs ++ ys) = heard l xs ++ heard l ys :=
  List.filterMap_append

theorem heard_cons (l : Listener) (t : Ticket) (c : Completion) (done : List (Ticket × Completion)) :
    heard l ((t, c) :: done) =
      if t.listener = l then (t.number, c) :: heard l done else heard l done := by
  by_cases h : t.listener = l <;> simp [heard, h]

/-- The completions of sends that were given up. -/
def abandon (gone : List Ticket) : List (Ticket × Completion) := gone.map (·, .error .abandoned)

theorem ends_depart (w : World) (number : Nat) (q : Request) (patience : Option Span) :
    (w.depart number q patience).1.called = w.called ∧
      (w.depart number q patience).1.resolved = w.resolved := by
  unfold depart
  simp only [note, fly]
  split <;> exact ⟨rfl, rfl⟩

/-- Callbacks run for the sends that are completed; futures are resolved for
these and for the sends that are given up. -/
theorem ends_act (number : Nat) (p : Party) (effects : List Effect) (w : World) :
    (effects.foldl (fun w x => w.act number p x) w).called.Perm
        (heard .callback (completions (deeds effects)) ++ w.called) ∧
      (effects.foldl (fun w x => w.act number p x) w).resolved.Perm
        (heard .future (completions (deeds effects) ++ abandon (drops (deeds effects)))
          ++ w.resolved) := by
  induction effects generalizing w with
  | nil => exact ⟨.refl _, .refl _⟩
  | cons x xs ih =>
    obtain ⟨hc, hr⟩ := ih (w.act number p x)
    rw [List.foldl_cons]
    -- an effect that no listener hears of
    have silent : (w.act number p x).called = w.called → (w.act number p x).resolved = w.resolved →
        deeds (x :: xs) = deeds xs ∨ (∃ q, deeds (x :: xs) = .request q :: deeds xs) →
        (xs.foldl (fun w x => w.act number p x) (w.act number p x)).called.Perm
            (heard .callback (completions (deeds (x :: xs))) ++ w.called) ∧
          (xs.foldl (fun w x => w.act number p x) (w.act number p x)).resolved.Perm
            (heard .future (completions (deeds (x :: xs)) ++ abandon (drops (deeds (x :: xs))))
              ++ w.resolved) := by
      intro hcalled hresolved hdeeds
      rw [hcalled] at hc
      rw [hresolved] at hr
      rcases hdeeds with h | ⟨q, h⟩ <;> rw [h] <;> exact ⟨hc, hr⟩
    rcases x with q | ⟨q | ⟨t, c⟩ | t⟩ | r | _
    · obtain ⟨hcalled, hresolved⟩ := ends_depart w p.link q (some p.session.config.requestTimeout)
      exact silent hcalled hresolved (Or.inl rfl)
    · obtain ⟨hcalled, hresolved⟩ := ends_depart w p.link q (some p.session.config.requestTimeout)
      exact silent hcalled hresolved (Or.inr ⟨q, rfl⟩)
    · have hcons : completions (deeds (.deed (.completed t c) :: xs)) =
          (t, c) :: completions (deeds xs) := rfl
      have hdrops : drops (deeds (.deed (.completed t c) :: xs)) = drops (deeds xs) := rfl
      rw [hcons, hdrops, List.cons_append, heard_cons, heard_cons]
      cases hl : t.listener with
      | callback =>
        simp only [act, complete, hl] at hc hr
        simp only [reduceCtorEq, ↓reduceIte, act, complete, hl]
        exact ⟨hc.trans List.perm_middle, hr⟩
      | future =>
        simp only [act, complete, hl] at hc hr
        simp only [reduceCtorEq, ↓reduceIte, act, complete, hl]
        exact ⟨hc, hr.trans List.perm_middle⟩
    · have hcons : completions (deeds (.deed (.dropped t) :: xs)) = completions (deeds xs) := rfl
      have hdrops : drops (deeds (.deed (.dropped t) :: xs)) = t :: drops (deeds xs) := rfl
      rw [hcons, hdrops, heard_append, show abandon (t :: drops (deeds xs)) =
        (t, .error .abandoned) :: abandon (drops (deeds xs)) from rfl, heard_cons]
      rw [heard_append] at hr
      cases hl : t.listener with
      | callback =>
        simp only [act, giveUp, hl] at hc hr
        simp only [reduceCtorEq, ↓reduceIte, act, giveUp, hl]
        exact ⟨hc, hr⟩
      | future =>
        simp only [act, giveUp, hl] at hc hr
        simp only [↓reduceIte, act, giveUp, hl]
        refine ⟨hc, hr.trans ?_⟩
        rw [List.append_assoc, List.append_assoc]
        exact List.perm_middle.append_left _
    · exact silent rfl rfl (Or.inl rfl)
    · refine silent ?_ ?_ (Or.inl rfl) <;> simp only [act, closeLink, note] <;> split <;> rfl

end World

/-! ### Runs -/

/-- A worker at a move: it has completed or holds what was posted before the
messages that are ahead, and when it acts on a flush, it has completed what was
posted before the flush and nothing else. -/
structure Account.Orderly (A : Account) (m : Account.Move) : Prop where
  square : A.Square
  signals : A.delivery.worker.flushed = false → (A.act m).delivery.worker.flushed = true →
    A.Signals (A.act m)
  flush : A.Signals (A.act m) →
    ∃ before, (A.act m).posted = before ++ .barrier .flush :: (A.act m).agenda ∧
      ((A.act m).completed.map Prod.fst).Perm (Delivery.queued before) ∧
      (A.act m).delivery.worker.phase = .idle ∧ (A.act m).delivery.worker.flushed = true

/-- What a run of a session does to its sends. -/
structure Session.Settled (s : Session) (es : List Event) : Prop where
  /-- The accepted sends are those completed, given up, or outstanding. -/
  tickets : ((Daybook.empty.run s es).accepted.map (·.ticket)).Perm
    ((Daybook.empty.run s es).completed.map Prod.fst ++ (Daybook.empty.run s es).dropped ++
      (s.run es).1.outstanding)
  /-- If each was accepted once, it is completed at most once, and only those
  given up or outstanding are not. -/
  once : ((Daybook.empty.run s es).accepted.map (·.ticket)).Nodup →
    ((Daybook.empty.run s es).completed.map Prod.fst).Nodup ∧
    ∀ x ∈ (Daybook.empty.run s es).accepted,
      (x.ticket ∈ (Daybook.empty.run s es).completed.map Prod.fst ∧
        x.ticket ∉ (Daybook.empty.run s es).dropped ∧ x.ticket ∉ (s.run es).1.outstanding) ∨
      (x.ticket ∉ (Daybook.empty.run s es).completed.map Prod.fst ∧
        (x.ticket ∈ (Daybook.empty.run s es).dropped ∨ x.ticket ∈ (s.run es).1.outstanding))
  /-- Sends are given up when the worker dies or is killed by a close: all that
  were outstanding. -/
  gives_up : ∀ fs e gs, es = fs ++ e :: gs →
    (Daybook.empty.run s (fs ++ [e])).dropped = (Daybook.empty.run s fs).dropped ∨
      ((e = .died ∨ (e = .outwaited ∧ (s.run fs).1.wait = .drain)) ∧
        (Daybook.empty.run s (fs ++ [e])).dropped =
          (Daybook.empty.run s fs).dropped ++ (s.run fs).1.outstanding ∧
        (Daybook.empty.run s (fs ++ [e])).completed = (Daybook.empty.run s fs).completed ∧
        (s.run (fs ++ [e])).1.outstanding = [])
  /-- Callbacks run for completed sends; futures are resolved for these, and as
  abandoned for sends that were given up. -/
  told : ∀ (w : World) number p,
    ((s.run es).2.foldl (fun w x => w.act number p x) w).called.Perm
        (World.heard .callback (Daybook.empty.run s es).completed ++ w.called) ∧
      ((s.run es).2.foldl (fun w x => w.act number p x) w).resolved.Perm
        (World.heard .future ((Daybook.empty.run s es).completed ++
          World.abandon (Daybook.empty.run s es).dropped) ++ w.resolved)
  /-- A session that has closed has nothing outstanding. -/
  closed : (s.run es).1.lifecycle = .closed → (s.run es).1.wait = .nothing →
    (s.run es).1.outstanding = []
  /-- When the worker signals a flush nothing is outstanding. -/
  signalled : ∀ fs e gs w w', es = fs ++ e :: gs → (s.run fs).1.worker = some w →
    w.flushed = false → (s.run (fs ++ [e])).1.worker = some w' → w'.flushed = true →
    (s.run (fs ++ [e])).1.outstanding = [] ∧ (Daybook.empty.run s (fs ++ [e])).dropped = []
  /-- After a flush that succeeds every send is acknowledged or has failed. -/
  flushed : ∀ op lc r, (Daybook.empty.run s es).call = some ⟨op, lc, some (.ok r)⟩ →
    op.Flushes lc → (s.run es).1.shared.counters.sent =
      (s.run es).1.shared.counters.acknowledged + (s.run es).1.shared.counters.failed
  counted : (s.run es).1.shared.counters.acknowledged + (s.run es).1.shared.counters.failed ≤
    (s.run es).1.shared.counters.sent

namespace Session

/-- **Completions fire once, and a flush is a barrier.** -/
theorem completes_once {config : SessionConfig} {connected : Bool} {s : Session}
    (h : Session.build config connected = .ok s) {es : List Event} (hes : .abandoned ∉ es) :
    s.Settled es ∧ ∀ txid identity maxBatch shared moves m,
      ((Account.start txid identity maxBatch shared).run moves).Orderly m := by
  have split : ∀ {fs gs : List Event} {e : Event}, es = fs ++ e :: gs →
      .abandoned ∉ fs ∧ e ≠ .abandoned := by
    rintro fs gs e rfl
    simp only [List.mem_append, List.mem_cons, not_or] at hes
    exact ⟨hes.1, fun he => hes.2.1 he.symm⟩
  have one : ∀ fs e, (s.run (fs ++ [e])).1 = ((s.run fs).1.step e).1 ∧
      Daybook.empty.run s (fs ++ [e]) = (Daybook.empty.run s fs).step (s.run fs).1 e := by
    intro fs e
    rw [Daybook.run_append, run_append]
    exact ⟨rfl, rfl⟩
  have hrun := (Accounted.start h).run hes
  refine ⟨⟨hrun.tickets, hrun.once, ?_, ?_, ?_, ?_, fun _ _ _ => hrun.settled, hrun.counted⟩, ?_⟩
  · intro fs e gs hsplit
    obtain ⟨hfs, hne⟩ := split hsplit
    rw [(one fs e).1, (one fs e).2]
    exact ((Accounted.start h).run hfs).gives_up hne
  · intro w number p
    obtain ⟨hcompleted, hdropped⟩ := Daybook.run_ends s .empty es
    rw [hcompleted, hdropped]
    exact World.ends_act number p (s.run es).2 w
  · intro hl hw
    rcases hrun.closed hl with hdrain | ⟨-, hnil⟩
    · rw [hw] at hdrain
      cases hdrain
    · exact hnil
  · intro fs e gs w w' hsplit hw hbefore hw' hafter
    obtain ⟨hfs, hne⟩ := split hsplit
    rw [(one fs e).1] at hw' ⊢
    rw [(one fs e).2]
    exact ((Accounted.start h).run hfs).signalled hne hw hbefore hw' hafter
  · intro txid identity maxBatch shared moves m
    have hsquare := Account.square_run (Account.square_start txid identity maxBatch shared) moves
    exact ⟨hsquare, Account.signals_act, Account.flush_act hsquare⟩

theorem build_settings : Session.build Scene.settings true = .ok (fresh Scene.settings) :=
  build_ok (SessionConfig.validate_ok_iff.mpr (by decide +kernel))

/-- Two sends are flushed, one of them in vain; a third one is taken up by a
worker that dies. -/
def diesAfterFlush : List Event := [
  .called .init, .answered (.ok (.identity ⟨1000, 0⟩)), .called .begin, .round 1,
  .called (.send (Scene.draftFor 0) ⟨0, .future⟩ 0),
  .answered (.ok (.partitions [⟨"T", 0, none⟩, ⟨"T", 1, none⟩])),
  .called (.send (Scene.draftFor 7) ⟨1, .callback⟩ 0), .called .flush, .round 9,
  .delivered (.ok .enrolled), .delivered (.ok (.appended 5)), .woken,
  .called (.send (Scene.draftFor 1) ⟨2, .callback⟩ 0),
  .answered (.ok (.partitions [⟨"T", 0, none⟩, ⟨"T", 1, none⟩])), .round 9, .died]

theorem completes_once_diesAfterFlush : Session.build Scene.settings true = .ok (fresh Scene.settings) ∧
    Event.abandoned ∉ diesAfterFlush ∧ (fresh Scene.settings).Settled diesAfterFlush ∧
    (Daybook.empty.run (fresh Scene.settings) diesAfterFlush).accepted.map (·.ticket) =
      [⟨0, .future⟩, ⟨1, .callback⟩, ⟨2, .callback⟩] ∧
    (Daybook.empty.run (fresh Scene.settings) diesAfterFlush).completed.map Prod.fst =
      [⟨1, .callback⟩, ⟨0, .future⟩] ∧
    (Daybook.empty.run (fresh Scene.settings) diesAfterFlush).dropped = [⟨2, .callback⟩] :=
  ⟨build_settings, by simp [diesAfterFlush],
    (completes_once build_settings (by simp [diesAfterFlush])).1,
    by decide +kernel, by decide +kernel, by decide +kernel⟩

end Session
end FencedLog
