/-
# One event and the sends

Every event of a session is one of the steps that a daybook knows. A turn of an
operation that does not send leaves the sends alone (`onward_of_turn`); one of
a send brings it up to the queue (`steps_push`); the other events are those of
the worker.

Key theorem: `Daybook.steps`.
-/
import FencedLog.Proofs.Session.Daybook

namespace FencedLog

open Stance

/-! ### Turns that concern no send -/

/-- The turn concerns no send. -/
structure Stance.Onward (v v' : Stance) (b b' : Daybook) : Prop where
  load : SameLoad v.worker v'.worker
  crowd : v'.wait.crowd = v.wait.crowd
  closed : v'.lifecycle = .closed → v.lifecycle = .closed ∨ v'.wait = .drain ∨
    (v'.wait = .nothing ∧ v.worker = none)
  book : ∃ call', b' = { b with call := call' } ∧
    (v'.Rests call' → v.Reposes ∨ v.worker = none)

section Onward

variable {v v' : Stance} {work : Line} {b : Daybook} {e : Event} {op : Operation} {lc : Lifecycle}
  {effects : List Effect}

/-- A call that failed, or is not over, was no flush. -/
theorem reposes_of_rests {call : Option Call} (h : v.Rests call)
    (hc : ∀ op lc r, call ≠ some ⟨op, lc, some (.ok r)⟩) : v.Reposes := by
  rcases h with h | ⟨-, op, lc, r, hcall, -⟩
  · exact h
  · exact absurd hcall (hc op lc r)

theorem not_reposes (hf : ∀ next, v.wait ≠ .flush next) (he : ∀ o, v.wait ≠ .finish o .inTransaction) :
    ¬ v.Reposes := by
  rintro (⟨next, -, hw, -⟩ | ⟨o, hw⟩)
  · exact hf next hw
  · exact he o hw

theorem Primed.crowd (hp : Primed v .idle b.call e op lc)
    (hsend : ∀ draft ticket present, op ≠ .send draft ticket present) : v.wait.crowd = 0 := by
  unfold Wait.crowd
  split
  · rename_i p next hw
    have hrun := hp.running (by simp [hw])
    rw [hw] at hrun
    cases hrun with
    | crowded s _ hm hn => exact absurd rfl (hsend s.draft s.ticket s.present)
  · rfl

/-- An operation that goes on writes nothing into the book. -/
theorem Primed.waits (hp : Primed v .idle b.call e op lc) (hfold : effects.foldl Daybook.feel b = b)
    (hr : v'.Reposes → v.Reposes ∨ v.worker = none) :
    ∃ call', effects.foldl Daybook.feel b = { b with call := call' } ∧
      (v'.Rests call' → v.Reposes ∨ v.worker = none) := by
  refine ⟨b.call, hfold, fun h => hr (reposes_of_rests h fun _ _ _ hc => ?_)⟩
  rw [hp.call] at hc
  cases hc

/-- Nor does it if it waits for neither a flush nor the end of a transaction. -/
theorem Primed.waits_aside (hp : Primed v .idle b.call e op lc)
    (hfold : effects.foldl Daybook.feel b = b) (hf : ∀ next, v'.wait ≠ .flush next)
    (he : ∀ o, v'.wait ≠ .finish o .inTransaction) :
    ∃ call', effects.foldl Daybook.feel b = { b with call := call' } ∧
      (v'.Rests call' → v.Reposes ∨ v.worker = none) :=
  hp.waits hfold fun h => absurd h (not_reposes hf he)

theorem Primed.fails (hp : Primed v .idle b.call e op lc) (err : SessionError)
    (hw : v'.wait = .nothing) :
    ∃ call', [Effect.returned (.error err)].foldl Daybook.feel b = { b with call := call' } ∧
      (v'.Rests call' → v.Reposes ∨ v.worker = none) := by
  refine ⟨_, Daybook.returned_error hp.call err, fun h => ?_⟩
  exact absurd (reposes_of_rests h (by simp)) (not_reposes (by simp [hw]) (by simp [hw]))

/-- An operation that succeeds leaves a flush behind if it flushes. -/
theorem Primed.succeeds (hp : Primed v .idle b.call e op lc)
    (hsend : ∀ draft ticket present, op ≠ .send draft ticket present) (r : Report)
    (hw : v'.wait = .nothing) (hf : op.Flushes lc → v.Reposes ∨ v.worker = none) :
    ∃ call', [Effect.returned (.ok r)].foldl Daybook.feel b = { b with call := call' } ∧
      (v'.Rests call' → v.Reposes ∨ v.worker = none) := by
  refine ⟨_, Daybook.returned_ok hp.call hsend r, fun h => ?_⟩
  rcases h with h | ⟨-, op', lc', r', hcall, hflushes⟩
  · exact absurd h (not_reposes (by simp [hw]) (by simp [hw]))
  · simp only [Option.some.injEq, Call.mk.injEq] at hcall
    obtain ⟨rfl, rfl, -⟩ := hcall
    exact hf hflushes

/-- An operation that does not send has no effect on the sends, and succeeds
after a flush only where it has been reached. -/
theorem onward_of_turn (hp : Primed v .idle b.call e op lc) (hg : Grounded v work)
    (hsend : ∀ draft ticket present, op ≠ .send draft ticket present)
    (hflush : op = .flush → (∃ r, .returned (.ok r) ∈ effects) → v.Reposes ∨ v.worker = none)
    (ht : v.Turn e v' effects) : v.Onward v' b (effects.foldl Daybook.feel b) := by
  have hcrowd := hp.crowd hsend
  have keep : v'.lifecycle = v.lifecycle → v'.lifecycle = .closed → v.lifecycle = .closed ∨
      v'.wait = .drain ∨ (v'.wait = .nothing ∧ v.worker = none) :=
    fun hl hc => Or.inl (hl.symm.trans hc)
  cases ht with
  | stay h => exact ⟨.refl _, rfl, keep rfl, hp.waits rfl Or.inl⟩
  | failed err hu => exact ⟨.refl _, hcrowd.symm, keep rfl, hp.fails err rfl⟩
  | reported r hn hu =>
    refine ⟨.refl _, hcrowd.symm, keep rfl, hp.succeeds hsend r rfl ?_⟩
    rintro (rfl | ⟨⟨o, rfl⟩, hl⟩)
    · exact hflush rfl ⟨r, List.mem_singleton_self _⟩
    · have hready := (hp.neutral hn).2.2 o rfl
      rw [hready] at hl
      cases hl
  | identifying hw hl he =>
    exact ⟨.refl _, hcrowd.symm, keep rfl, hp.waits_aside rfl (by simp) (by simp)⟩
  | listing topic hw he =>
    exact ⟨.refl _, hcrowd.symm, keep rfl, hp.waits_aside rfl (by simp) (by simp)⟩
  | routing draft ticket present hw hl he => exact absurd (hp.calls he).1.symm (hsend _ _ _)
  | acquired id inherited w hw h =>
    have hop : v.lifecycle = .uninitialized ∧ ∀ lc, ¬ op.Flushes lc := by
      rcases h with ⟨hwait, -⟩ | ⟨-, hl, -, op', he, hres⟩
      · have hrun := hp.running (by simp [hwait])
        rw [hwait] at hrun
        cases hrun with
        | identity hn => exact ⟨hn, fun _ h => by simp [Operation.Flushes] at h⟩
      · obtain ⟨rfl, -⟩ := hp.calls he
        refine ⟨hl, fun _ h => ?_⟩
        rcases h with rfl | ⟨⟨o, rfl⟩, -⟩ <;> cases hres
    refine ⟨?_, hcrowd.symm, fun hl => absurd hl (by simp),
      hp.succeeds hsend .done rfl fun h => absurd h (hop.2 lc)⟩
    rw [hg.fresh hop.1, hw]
    exact .start _ rfl rfl rfl
  | sent p w h hw hph =>
    obtain ⟨x, hop, -⟩ := hp.sends h
    exact absurd hop (hsend _ _ _)
  | abandoned p h _ =>
    obtain ⟨x, hop, -⟩ := hp.sends h
    exact absurd hop (hsend _ _ _)
  | crowded p h =>
    obtain ⟨x, hop, -⟩ := hp.sends h
    exact absurd hop (hsend _ _ _)
  | begun w started h hw hph =>
    obtain ⟨rfl, -⟩ := hp.begins h
    refine ⟨?_, hcrowd.symm, fun hl => absurd hl (by simp),
      hp.succeeds hsend .done rfl fun h => by simp [Operation.Flushes] at h⟩
    rw [hw]
    exact .queue_barrier w .newTransaction id
  | beginning started h =>
    exact ⟨.refl _, hcrowd.symm, keep rfl, hp.waits_aside rfl (by simp) (by simp)⟩
  | unbegun started err h => exact ⟨.refl _, hcrowd.symm, keep rfl, hp.fails err rfl⟩
  | flushing w next flushed h hw hph =>
    have hf := (hp.flushes h fun next hn => (hg.manned w hw).shape.armed _ hn).1
    refine ⟨?_, hcrowd.symm, keep rfl, hp.waits rfl fun hr => ?_⟩
    · rw [hw]
      exact .queue_barrier w .flush (by simp [hf])
    · -- the flush is still to be reached
      rcases hr with ⟨next', w', -, hw', hf'⟩ | ⟨o, hw'⟩
      · rw [← Option.some.inj hw'] at hf'
        simp [Stance.queue, hf] at hf'
      · cases hw'
  | awaiting w next flushed h hw hph =>
    refine ⟨?_, hcrowd.symm, keep rfl, hp.waits_aside rfl (by simp) (by simp)⟩
    have hf := (hp.flushes h fun next hn => (hg.manned w hw).shape.armed _ hn).1
    rw [hw]
    exact .some _ _ rfl rfl (by simp [hf])
  | unflushed w next flushed err h hw hph =>
    have hf := (hp.flushes h fun next hn => (hg.manned w hw).shape.armed _ hn).1
    refine ⟨?_, hcrowd.symm, keep rfl, hp.fails err rfl⟩
    rw [hw]
    exact .some _ _ rfl rfl (by simp [hf])
  | finishing o back id hid h =>
    refine ⟨.refl _, hcrowd.symm, (fun hl => by cases o <;> cases hl),
      hp.waits rfl fun hr => ?_⟩
    rcases h with ⟨-, -, -, hb, -⟩ | ⟨⟨hwait, w, hw, hf⟩, -, -⟩
    · exact absurd hr (not_reposes (by simp) (by simp [hb]))
    · exact Or.inl (Or.inl ⟨_, w, hwait, hw, hf⟩)
  | concluded o h =>
    refine ⟨.refl _, hcrowd.symm, fun hl => absurd hl (by simp), hp.succeeds hsend .done rfl ?_⟩
    intro hflushes
    left
    rcases h with ⟨back, hw, -⟩ | ⟨⟨hwait, w, hw, hf⟩, -⟩
    · obtain ⟨rfl, rfl, -⟩ := hp.finishing hw
      rcases hflushes with hop | ⟨-, hlc⟩
      · cases hop
      · exact Or.inr ⟨o, hlc ▸ hw⟩
    · exact Or.inl ⟨_, w, hwait, hw, hf⟩
  | refused o back err fatal error hw he hf =>
    refine ⟨.refl _, hcrowd.symm, fun hl => ?_, hp.fails error rfl⟩
    have hl' : back = .closed := hl
    rcases (hp.finishing hw).2.2.1 with rfl | rfl <;> cases hl'
  | closing hw he =>
    exact ⟨.refl _, hcrowd.symm, fun _ => Or.inr (Or.inl rfl),
      hp.waits_aside rfl (by simp) (by simp)⟩
  | closed hw he hn =>
    obtain ⟨rfl, -⟩ := hp.calls he
    exact ⟨.refl _, hcrowd.symm, fun _ => Or.inr (Or.inr ⟨rfl, hn⟩),
      hp.succeeds hsend .done rfl fun h => by simp [Operation.Flushes] at h⟩
  | drained hw =>
    have hrun := hp.running (by simp [hw])
    rw [hw] at hrun
    cases hrun with
    | draining hn =>
      exact ⟨.refl _, hcrowd.symm, keep rfl,
        hp.succeeds hsend .done rfl fun h => by simp [Operation.Flushes] at h⟩

end Onward

/-! ### Turns of a send -/

section Sends

variable {s s₁ : Session} {b : Daybook} {e : Event} {lc : Lifecycle}

theorem push_send (s : Session) (p : Pending) :
    (∃ w, s.worker = some w ∧ w.phase ≠ .stopped ∧ s.push (.send p) .sent =
      ({ s with worker := some (Stance.queue w (.send p)), wait := .nothing },
        [.returned (.ok .done)])) ∨
    s.push (.send p) .sent = ({ s with wait := .room (.send p) .sent }, []) ∨
    s.push (.send p) .sent = ({ s with shared := s.shared.countFailed 1, wait := .nothing },
      [.deed (.completed p.ticket (.error .abandoned)), .returned (.ok .done)]) := by
  rcases Session.stance_push (rfl : s.stance = s.stance) with
    ⟨w, hw, hp, he⟩ | ⟨w, -, -, he⟩ | ⟨-, he⟩
  · exact Or.inl ⟨w, hw, hp, he⟩
  · exact Or.inr (Or.inl he)
  · exact Or.inr (Or.inr he)

/-- A session that sends does not rest. -/
theorem not_rests_send {v : Stance} {draft : Draft} {ticket : Ticket} {present : Int}
    {r : Option (Except SessionError Report)}
    (hw : v.wait = .nothing ∨ ∃ p, v.wait = .room (.send p) .sent) :
    ¬ v.Rests (some ⟨.send draft ticket present, lc, r⟩) := by
  rintro (h | ⟨-, op, lc', r', hcall, hf⟩)
  · refine not_reposes ?_ ?_ h <;> rcases hw with hw | ⟨p, hw⟩ <;> simp [hw]
  · simp only [Option.some.injEq, Call.mk.injEq] at hcall
    rw [← hcall.1] at hf
    simp [Operation.Flushes] at hf

/-- A record comes up to the queue: it is queued, waits for room, or is
abandoned. -/
theorem steps_push (now : Lifecycle) {x : Sent} {p : Pending} (hm : x.Makes p) (hw : s₁.worker = s.worker)
    (hl : s₁.lifecycle = .inTransaction) (hk : s.Counts s₁ 0) :
    Daybook.Step s b e (s₁.push (.send p) .sent).1 ((s₁.push (.send p) .sent).2.foldl Daybook.feel
      { b with call := some ⟨.send x.draft x.ticket x.present, now, none⟩ }) := by
  rcases push_send s₁ p with ⟨w, hwk, hp, he⟩ | he | he
  · rw [he]
    simp only [List.foldl, Daybook.feel]
    rw [Daybook.returned_send rfl]
    exact .queued _ x p w _ hm (hw ▸ hwk) hp rfl hl rfl hk (not_rests_send (Or.inl rfl))
  · rw [he]
    exact .waits _ p _ hw hl rfl hk (not_rests_send (Or.inr ⟨p, rfl⟩))
  · rw [he]
    simp only [List.foldl, Daybook.feel]
    rw [Daybook.returned_send rfl]
    refine .abandoned _ x p _ hm hw hl rfl ⟨hk.1, hk.2.1, ?_⟩ (not_rests_send (Or.inl rfl))
    exact congrArg (· + 1) hk.2.2

theorem counters_route (s : Session) (draft : Draft) (count : Nat) :
    (s.route draft count).1.shared.counters = s.shared.counters := by
  rcases Session.shared_route s draft count with h | h
  · rw [h]
  · rw [h]
    rfl

/-- A draft that is routed comes up to the queue, and is counted. -/
theorem steps_enqueue (now : Lifecycle) (draft : Draft) (ticket : Ticket) (present : Int)
    (target : Except DeliveryError TopicPartition) (hw : s₁.worker = s.worker)
    (hl : s₁.lifecycle = .inTransaction) (hk : s₁.shared.counters = s.shared.counters)
    (hcrowd : s.wait.crowd = 0) (ht : ∀ p, target = .ok p → p.topic = draft.topic) :
    Daybook.Step s b e (s₁.enqueue draft ticket present target).1
      ((s₁.enqueue draft ticket present target).2.foldl Daybook.feel
        { b with call := some ⟨.send draft ticket present, now, none⟩ }) := by
  unfold Session.enqueue
  refine steps_push now (x := ⟨draft, ticket, present⟩) (p := ⟨target, draft.record present, ticket⟩)
    ⟨rfl, rfl, ht⟩ hw hl ⟨?_, ?_, ?_⟩
  · simp [hk, hcrowd]
  · simp [hk]
  · simp [hk]

/-- Nothing happens at all. -/
theorem steps_same (hcl : s.lifecycle = .closed → s.wait = .nothing ∨ s.wait = .drain) :
    Daybook.Step s b e s b := by
  refine .onward s b.call (.refl _) rfl (.refl _) Or.inl fun hl => ?_
  rcases hcl hl with hw | hw
  · exact Or.inr ⟨hw, Or.inl ⟨hl, hw⟩⟩
  · exact Or.inl hw

/-- A send that is called. -/
theorem steps_called_send {draft : Draft} {ticket : Ticket} {present : Int} (hw : s.wait = .nothing) :
    Daybook.Step s b e (s.called (.send draft ticket present)).1
      ((s.called (.send draft ticket present)).2.foldl Daybook.feel
        { b with call := some ⟨.send draft ticket present, s.lifecycle, none⟩ }) := by
  have hcrowd : s.wait.crowd = 0 := by rw [hw]; rfl
  simp only [Session.called]
  split
  · rename_i hl
    unfold Session.send
    split
    · rename_i infos _
      have hst := Session.stance_route s draft infos.length
      exact steps_enqueue _ _ _ _ _ (congrArg Stance.worker hst) ((congrArg Stance.lifecycle hst).trans hl)
        (counters_route s draft infos.length) hcrowd fun p hp => Session.route_topic hp
    · refine .onward _ _ (.refl _) hcrowd.symm (.refl _) (fun hr => ?_) fun hc => ?_
      · exact absurd (reposes_of_rests hr (by simp)) (not_reposes (by simp [Session.stance, Session.ask])
          (by simp [Session.stance, Session.ask]))
      · rw [show s.lifecycle = .closed from hc] at hl
        cases hl
  · simp only [Session.illegal, Session.failed, Session.finished, List.foldl, Daybook.feel]
    rw [Daybook.returned_error rfl]
    refine .onward _ _ (.refl _) hcrowd.symm (.refl _) (fun hr => ?_) fun hc => ?_
    · exact absurd (reposes_of_rests hr (by simp)) (not_reposes (by simp [Session.stance])
        (by simp [Session.stance]))
    · exact Or.inr ⟨rfl, Or.inl ⟨hc, hw⟩⟩

/-- A send that is running is being routed, or waits for room. -/
theorem Running.of_send {now : Lifecycle} {wait : Wait} {draft : Draft} {ticket : Ticket}
    {present : Int} (h : Running lc now wait (.send draft ticket present)) :
    now = .inTransaction ∧ (wait = .routing draft ticket present ∨
      ∃ p, (Sent.mk draft ticket present).Makes p ∧ wait = .room (.send p) .sent) := by
  cases h with
  | routing _ _ _ hn => exact ⟨hn, Or.inl rfl⟩
  | crowded x p hm hn => exact ⟨hn, Or.inr ⟨p, hm, rfl⟩⟩
  | awaiting _ _ h => cases h
  | flushing _ _ h => cases h

/-- A send that is called, is routed, or looks for room. -/
theorem steps_send {draft : Draft} {ticket : Ticket} {present : Int} (he : Session.OwnEvent e)
    (hp : Primed s.stance .idle (b.called s e).call e (.send draft ticket present) lc) :
    Daybook.Step s b e (s.step e).1 (b.step s e) := by
  rcases hp.why with ⟨hw, rfl, -⟩ | ⟨hw, hrun, hne, -⟩
  · have hw' : s.wait = .nothing := hw
    have hstep : s.step (.called (.send draft ticket present)) =
        s.called (.send draft ticket present) := by rw [Session.step, hw']
    rw [Daybook.step, hstep, show b.called s (.called (.send draft ticket present)) =
      { b with call := some ⟨.send draft ticket present, s.lifecycle, none⟩ } by
        simp only [Daybook.called, hw']]
    exact steps_called_send hw'
  · have hbook : b.called s e = b := by
      rcases he with ⟨op, rfl⟩ | ⟨answer, rfl⟩ | rfl
      · exact absurd rfl (hne op)
      · rfl
      · rfl
    have hcall := hp.call
    rw [hbook] at hcall
    have hb : b = { b with call := some ⟨.send draft ticket present, lc, none⟩ } := by rw [← hcall]
    obtain ⟨hl, hwait⟩ : s.lifecycle = .inTransaction ∧ (s.wait = .routing draft ticket present ∨
        ∃ p, (Sent.mk draft ticket present).Makes p ∧ s.wait = .room (.send p) .sent) :=
      hrun.of_send
    have same : Daybook.Step s b e s b := steps_same fun hc => by
      rw [hl] at hc
      cases hc
    unfold Daybook.step
    rw [hbook]
    rcases he with ⟨op, rfl⟩ | ⟨answer, rfl⟩ | rfl
    · exact absurd rfl (hne op)
    · rcases hwait with hwait | ⟨p, hm, hwait⟩
      · have hcrowd : s.wait.crowd = 0 := by rw [hwait]; rfl
        rcases answer with err | reply
        · simp only [Session.step, Session.answered, hwait]
          have h := fun target ht => steps_enqueue (s := s) (b := b) (e := .answered (.error err))
            lc draft ticket present target rfl hl rfl hcrowd ht
          rw [← hb] at h
          refine h _ fun p hp => ?_
          cases hp
        · cases reply with
          | partitions infos =>
            simp only [Session.step, Session.answered, hwait]
            have hst := Session.stance_route (s.learn draft.topic infos) draft infos.length
            have h := steps_enqueue (s := s) (b := b) (e := .answered (.ok (.partitions infos)))
              lc draft ticket present ((s.learn draft.topic infos).route draft infos.length).2
              (congrArg Stance.worker hst) ((congrArg Stance.lifecycle hst).trans hl)
              (counters_route _ draft infos.length) hcrowd fun p hp => Session.route_topic hp
            rwa [← hb] at h
          | _ =>
            simp only [Session.step, Session.answered, hwait]
            exact same
      · simp only [Session.step, Session.answered, hwait]
        exact same
    · rcases hwait with hwait | ⟨p, hm, hwait⟩
      · simp only [Session.step, Session.woken, hwait]
        exact same
      · simp only [Session.step, Session.woken, hwait]
        have hk : s.Counts s 0 := ⟨by rw [hwait]; rfl, rfl, rfl⟩
        have h := steps_push (b := b) (e := .woken) lc hm rfl hl hk
        rwa [← hb] at h

end Sends

/-! ### Every event -/

section Steps

variable {s : Session} {b : Daybook} {own work : Line}

theorem Daybook.called_eq (b : Daybook) (s : Session) (e : Event) :
    b.called s e = { b with call := (b.called s e).call } := by
  unfold called
  split
  · split <;> rfl
  · rfl

/-- An operation that does not send goes on. -/
theorem steps_onward (hc : Coupled s.stance own work b.call)
    (hcl : s.lifecycle = .closed → s.wait = .nothing ∨ s.wait = .drain) {e : Event}
    (he : Session.OwnEvent e) {op : Operation} {lc : Lifecycle}
    (hp : Primed s.stance .idle (b.called s e).call e op lc) (ht : s.Turns e (s.step e))
    (hsend : ∀ draft ticket present, op ≠ .send draft ticket present) :
    Daybook.Step s b e (s.step e).1 (b.step s e) := by
  have hg : Grounded s.stance work := ⟨hc.sane, hc.fresh, hc.unmanned, hc.manned⟩
  obtain ⟨hload, hcrowd, hclosed, call', hbook, hrests⟩ := onward_of_turn hp hg hsend
    (fun hop hr => Session.flush_returns he (hop ▸ hp) hr) ht
  rw [Daybook.step, hbook, Daybook.called_eq]
  have hsame : s.shared.counters.SameSends (s.step e).1.shared.counters := by
    rcases hp.why with ⟨hw, rfl, -⟩ | ⟨hw, hrun, hne, -⟩
    · have hw' : s.wait = .nothing := hw
      rw [show s.step (.called op) = s.called op by rw [Session.step, hw']]
      exact Session.sameSends_called hsend
    · rcases he with ⟨op', rfl⟩ | ⟨answer, rfl⟩ | rfl
      · exact absurd rfl (hne op')
      · refine Session.sameSends_answered (fun draft ticket present hwait => ?_) answer
        rw [show s.stance.wait = _ from hwait] at hrun
        cases hrun with
        | routing => exact hsend _ _ _ rfl
      · refine Session.sameSends_woken hc.sane fun p next hwait => ?_
        rw [show s.stance.wait = _ from hwait] at hrun
        cases hrun with
        | crowded x => exact hsend _ _ _ rfl
  refine .onward _ call' hload hcrowd hsame (fun h => (hrests h).imp_left Or.inl) fun hl => ?_
  by_cases hbefore : s.lifecycle = .closed
  · rcases Session.step_closed hbefore (hcl hbefore) he with hw | ⟨hw, hgone⟩
    · rw [hw]
      exact (hcl hbefore).elim (fun h => Or.inr ⟨h, Or.inl ⟨hbefore, h⟩⟩) Or.inl
    · exact Or.inr ⟨hw, Or.inr hgone⟩
  · rcases hclosed hl with h | hw | ⟨hw, hnone⟩
    · exact absurd h hbefore
    · exact Or.inl hw
    · refine Or.inr ⟨hw, Or.inr ?_⟩
      rw [Session.isWorkerGone, show s.worker = none from hnone]

/-- A close that has waited long enough. -/
theorem steps_outwaited (hc : Coupled s.stance own work b.call)
    (hcl : s.lifecycle = .closed → s.wait = .nothing ∨ s.wait = .drain) :
    Daybook.Step s b .outwaited s.outwaited.1 (s.outwaited.2.foldl Daybook.feel b) := by
  unfold Session.outwaited
  split
  · rename_i hwait
    obtain ⟨op, lc, hcall, hrun⟩ := hc.running (by simp [Session.stance, hwait])
    rw [show s.stance.wait = _ from hwait] at hrun
    cases hrun with
    | draining hn =>
      cases hw : s.worker with
      | none =>
        simp only [Session.deliver, hw, Session.finished, List.nil_append, List.foldl, Daybook.feel]
        rw [Daybook.returned_ok hcall (by simp)]
        refine .onward _ _ ?_ ?_ (.refl _) (fun hr => ?_) fun _ => Or.inr ⟨rfl, Or.inr ?_⟩
        · rw [hw]
          exact .none
        · rw [hwait]
          rfl
        · exact Or.inr hw
        · rw [Session.isWorkerGone, hw]
      | some w =>
        simp only [Scene.deliver_kill hw, Session.finished]
        rw [List.foldl_append, Daybook.foldl_deeds]
        simp only [completions_dropped, drops_dropped, List.append_nil, List.foldl, Daybook.feel]
        rw [Daybook.returned_ok (b := { b with dropped := b.dropped ++ _ }) hcall (by simp),
          ← Worker.outstanding, ← Session.outstanding_of hw]
        refine .kills w .nothing _ hw (Or.inr ⟨rfl, hwait, rfl, ?_⟩)
        intro op lc r h
        simp only [Option.some.injEq, Call.mk.injEq] at h
        exact h.1.symm
  · exact steps_same hcl

/-- **Every event of a session is one of the steps.** -/
theorem Daybook.steps (hc : Coupled s.stance own work b.call)
    (hcl : s.lifecycle = .closed → s.wait = .nothing ∨ s.wait = .drain) {e : Event}
    (hne : e ≠ .abandoned) : Daybook.Step s b e (s.step e).1 (b.step s e) := by
  -- a move of the worker, if there is one
  have moves : ∀ (f : Delivery → Delivery × List Deed), s.step e = s.deliver f →
      b.called s e = b →
      (∀ w, s.worker = some w → ∃ gone, Delivery.Advances ⟨w, s.shared⟩ gone (f ⟨w, s.shared⟩)) →
      (∀ w, (∃ visible, e = .round visible ∧ f ⟨w, s.shared⟩ = Delivery.round ⟨w, s.shared⟩ visible) ∨
        ∃ answer, e = .delivered answer ∧ f ⟨w, s.shared⟩ = Delivery.answered ⟨w, s.shared⟩ answer) →
      Daybook.Step s b e (s.step e).1 (b.step s e) := by
    intro f hstep hbook hadv hf
    rw [Daybook.step, hstep, hbook]
    cases hw : s.worker with
    | none =>
      simp only [Session.deliver, hw]
      exact steps_same hcl
    | some w =>
      obtain ⟨gone, hr⟩ := hadv w hw
      simp only [Session.deliver, hw]
      rw [Daybook.foldl_deeds, hr.drops, List.append_nil]
      exact .moves w gone _ hw hr (hf w)
  have turns : Session.OwnEvent e → Daybook.Step s b e (s.step e).1 (b.step s e) := by
    intro he
    rcases Session.turns_step hc he with ⟨hstep, hbook⟩ | ⟨op, lc, hp, ht⟩
    · rw [Daybook.step, hstep, hbook]
      exact steps_same hcl
    · by_cases hsend : ∃ draft ticket present, op = .send draft ticket present
      · obtain ⟨draft, ticket, present, rfl⟩ := hsend
        exact steps_send he hp
      · exact steps_onward hc hcl he hp ht fun draft ticket present h =>
          hsend ⟨draft, ticket, present, h⟩
  cases e with
  | abandoned => exact absurd rfl hne
  | called op => exact turns (Or.inl ⟨op, rfl⟩)
  | answered answer => exact turns (Or.inr (Or.inl ⟨answer, rfl⟩))
  | woken => exact turns (Or.inr (Or.inr rfl))
  | round visible =>
    exact moves (·.round visible) rfl rfl (fun w _ => Delivery.advances_round _ visible)
      fun w => Or.inl ⟨visible, rfl, rfl⟩
  | delivered answer =>
    exact moves (·.answered answer) rfl rfl (fun w _ => Delivery.advances_answered _ answer)
      fun w => Or.inr ⟨answer, rfl, rfl⟩
  | outwaited => exact steps_outwaited hc hcl
  | drained =>
    rw [Daybook.step, show b.called s .drained = b from rfl, Session.step]
    split
    · exact steps_same hcl
    · cases hw : s.worker with
      | none =>
        simp only [Session.deliver, hw]
        exact steps_same hcl
      | some w =>
        simp only [Session.deliver, hw, Delivery.drained]
        split
        · rename_i hp hq
          exact .drains w hw hp hq
        · have h : Daybook.Step s b .drained s b := steps_same hcl
          rw [← hw]
          exact h
  | died =>
    rw [Daybook.step, show b.called s .died = b from rfl, Session.step]
    cases hw : s.worker with
    | none =>
      simp only [Session.deliver, hw]
      exact steps_same hcl
    | some w =>
      rw [Scene.deliver_kill hw, Daybook.foldl_deeds, completions_dropped, drops_dropped,
        List.append_nil, ← Worker.outstanding, ← Session.outstanding_of hw]
      exact .kills w s.wait b.call hw (Or.inl ⟨rfl, rfl, rfl⟩)

end Steps

end FencedLog
