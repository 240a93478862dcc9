/-
# Recovery has at most one effect

While nobody else moves, a recovery makes one request in each try, to end the
token's transaction, each over a link of its own that is closed afterwards
(`World.Tried`). The request has one of three fates, and to handle it again
after it has been handled once changes nothing (`Broker.finish_again`). So a
recovery that succeeds has done what one request does, and one that fails has
done nothing, or that (`World.recovers`).

Key definitions: `World.Tried`, `World.Tries`, `World.Recovered`.
Key theorems: `Broker.finish_again`, `World.close_of_resting`,
`World.recoverOnce_spec`, `World.recovers`.
-/
import FencedLog.Network.Recovery
import FencedLog.Proofs.Broker.Fencing
import FencedLog.Proofs.Coordinator.Agreed
import FencedLog.Proofs.Session.Turn
import FencedLog.Proofs.World.Still

namespace FencedLog

/-! ### To finish twice -/

theorem Transaction.validate_not_retriable {t : Transaction} {id : Identity} {e : BrokerError}
    (h : t.validate id = .error e) : e.isRetriable = false := by
  unfold validate at h
  split at h
  · rw [← Except.error.inj h]
    rfl
  · split at h
    · rw [← Except.error.inj h]
      rfl
    · split at h
      · rw [← Except.error.inj h]
        rfl
      · cases h

/-- The coordinator refuses to end a transaction for good. -/
theorem Coordinator.finish_not_retriable {c : Coordinator} {x : String} {id : Identity} {o : Outcome}
    {e : BrokerError} (h : (c.finish x id o).2 = .error e) : e.isRetriable = false := by
  unfold finish at h
  split at h
  · rw [← Except.error.inj h]
    rfl
  · rename_i t _
    split at h
    · unfold finishStale at h
      split at h
      · cases h
      · split at h
        · cases h
        · rw [refuse_answer] at h
          rw [← Except.error.inj h]
          rfl
    · split at h
      · rename_i e' hv
        rw [refuse_answer] at h
        rw [← Except.error.inj h]
        exact Transaction.validate_not_retriable hv
      · split at h
        · cases h
        · cases h
        · split at h
          · cases h
          · rw [← Except.error.inj h]
            rfl

namespace Broker

variable {b : Broker} {now : Span} {x : String} {id : Identity} {o : Outcome}

/-- A request to end a transaction that was answered positively is answered so
again, and has nothing to do. -/
theorem finish_again (hs : b.coordinator.Sound) {r : Reply}
    (h : (b.handle now (.finish x id o)).2 = .ok r) (now' : Span) :
    (b.handle now (.finish x id o)).1.handle now' (.finish x id o) =
      ((b.handle now (.finish x id o)).1, .ok .finished) := by
  have ha : b.available = true := by
    by_contra hno
    simp [handle, hno] at h
  simp only [handle, ha, if_true] at h ⊢
  -- the coordinator has agreed, and the markers are no business of its
  have hdone : (b.finish x id o).1.available = true ∧ ∃ r, (b.coordinator.finish x id o).2 = .ok r ∧
      (b.finish x id o).1.coordinator = (b.coordinator.finish x id o).1 := by
    unfold finish at h ⊢
    generalize b.coordinator.finish x id o = f at h ⊢
    obtain ⟨c, answer⟩ := f
    cases answer with
    | error e => simp at h
    | ok closing =>
      cases closing with
      | none => exact ⟨ha, none, rfl, rfl⟩
      | some closing =>
        have hsame := same_close { b with coordinator := c } closing
        exact ⟨hsame.available.trans ha, some closing, rfl, hsame.coordinator⟩
  obtain ⟨havailable, closing, hok, hcoordinator⟩ := hdone
  obtain ⟨t, hd, hp⟩ := Coordinator.mapped_finish hs hok
  have hagain := Coordinator.finish_of_agreed (Coordinator.agreed_finish hs hok) hd hp
  rw [Coordinator.act, ← hcoordinator] at hagain
  rw [if_pos havailable]
  generalize b.finish x id o = done at hagain
  unfold finish
  rw [hagain]

/-- A request to end a transaction that was refused has changed neither the
logs nor the transactions, and nothing at all if it may be repeated. -/
theorem finish_refused {e : BrokerError} (h : (b.handle now (.finish x id o)).2 = .error e) :
    (b.handle now (.finish x id o)).1.topics = b.topics ∧
      (b.handle now (.finish x id o)).1.coordinator.transactions = b.coordinator.transactions ∧
      (e.isRetriable = true → (b.handle now (.finish x id o)).1 = b) := by
  by_cases ha : b.available = true
  · simp only [handle, ha, if_true] at h ⊢
    unfold finish at h ⊢
    cases hf : (b.coordinator.finish x id o).2 with
    | error e' =>
      rw [← Prod.eta (b.coordinator.finish x id o), hf] at h ⊢
      obtain rfl := Except.error.inj h
      refine ⟨rfl, ?_, fun he => ?_⟩
      · rcases Coordinator.finish_spec b.coordinator x id o with ⟨t, -, -, -, hok, -⟩ | ⟨hkept, -⟩
        · rw [hf] at hok
          cases hok
        · exact hkept.transactions
      · rw [Coordinator.finish_not_retriable hf] at he
        cases he
    | ok closing =>
      rw [← Prod.eta (b.coordinator.finish x id o), hf] at h
      cases closing <;> simp at h
  · rw [handle_of_not_available (by simpa using ha)]
    exact ⟨rfl, rfl, fun _ => rfl⟩

end Broker

/-- What is heard of a request is in kind. -/
theorem Fate.fits {b b' : Broker} {now : Span} {q : Request} {answer : Answer}
    (h : Fate b now q b' answer) : Fits q answer := by
  cases h with
  | refused e _ => exact trivial
  | lost e _ r _ => exact trivial
  | answered => exact fits_handle b now q

/-! ### The session of a try -/

namespace Session

/-- No operation is running, and the worker has nothing to do. -/
structure Resting (s : Session) : Prop where
  wait : s.wait = .nothing
  attached : s.attached = true
  worker : ∃ worker, s.worker = some worker ∧ worker.phase = .idle ∧ worker.queue = []

theorem Resting.canMove {s : Session} (h : s.Resting) : World.canMove s = false := by
  obtain ⟨worker, hw, hphase, hqueue⟩ := h.worker
  simp [World.canMove, hw, hphase, hqueue, h.attached]

/-- A session that nothing has happened to. -/
def fresh (config : SessionConfig) : Session :=
  ⟨config, .uninitialized, none, false, false, 0, .nothing, .start, none⟩

theorem build_ok {config : SessionConfig} (h : config.validate = .ok ()) :
    build config true = .ok (fresh config) :=
  build_eq_ok_iff.mpr ⟨h, rfl, rfl⟩

/-- What a session that has adopted an identity knows: it may have left a
transaction open. -/
structure Adopted (s : Session) (config : SessionConfig) (id : Identity) : Prop extends
    s.Resting where
  config : s.config = config
  lifecycle : s.lifecycle = .ready
  identity : s.identity = some id
  inherited : s.inherited = true

/-- A fresh session adopts the identity of a token. -/
theorem step_resumeFrom {config : SessionConfig} {token : ResumeToken}
    (htxid : token.txid = config.txid) (hp : 0 ≤ token.producer) (he : 0 ≤ token.epoch) :
    ∃ s, (fresh config).step (.called (.resumeFrom token)) = (s, [.returned (.ok .done)]) ∧
      s.Adopted config token.identity := by
  have hvalid : ¬ (token.producer < 0 ∨ token.epoch < 0) := by omega
  have hstep : (fresh config).step (.called (.resumeFrom token)) =
      ((fresh config).acquire token.identity true).finished (.ok .done) := by
    simp [fresh, step, called, resume, hvalid, htxid, ResumeToken.identity]
  exact ⟨_, hstep, ⟨rfl, rfl, _, rfl, rfl, rfl⟩, rfl, rfl, rfl, rfl⟩

variable {s : Session} {config : SessionConfig} {id : Identity} {o : Outcome}

/-- It asks the broker to end the transaction. -/
theorem step_finish (h : s.Adopted config id) (o : Outcome) :
    s.step (.called (.finish o)) =
      ({ s with lifecycle := o.ending, wait := .finish o .ready },
        [.asked (.finish config.txid id o)]) := by
  have hfinish : ∀ operation, s.finish operation o = s.askFinish o .ready := fun operation => by
    simp [finish, h.lifecycle, h.inherited]
  simp only [step, h.wait]
  cases o <;> simp [called, hfinish, askFinish, h.identity, ask, h.config, Outcome.ending]

/-- What the answer to a request to end a transaction is to the session. -/
def verdict (txid : String) (id : Identity) : Answer → Except SessionError Report
  | .ok _ => .ok .done
  | .error e => .error (.ofBroker txid (some id) e)

/-- With the answer the operation ends. -/
theorem step_finished (h : s.Adopted config id) {answer : Answer}
    (ha : Fits (.finish config.txid id o) answer) :
    ∃ s', step { s with lifecycle := o.ending, wait := .finish o .ready } (.answered answer) =
      (s', [.returned (verdict config.txid id answer)]) ∧ s'.Resting ∧ s'.lifecycle = .ready ∧
      s'.config = config := by
  rcases fits_finish ha with rfl | ⟨e, rfl⟩
  · exact ⟨_, rfl, ⟨rfl, h.attached, h.worker⟩, rfl, h.config⟩
  · refine ⟨_, Prod.ext rfl ?_, ⟨rfl, h.attached, h.worker⟩, rfl, h.config⟩
    simp [step, answered, finishRefused, failed, finished, verdict, h.identity, h.config]

/-! ### Its close -/

/-- The session is being closed, and waits for the end of its worker. -/
def closing (s : Session) : Session :=
  { s with lifecycle := .closed, attached := false, wait := .drain }

/-- The session is closed, and its worker has ended. -/
def Ended (s : Session) : Prop :=
  s.lifecycle = .closed ∧ ∃ worker, s.worker = some worker ∧ worker.phase = .stopped

theorem Ended.canMove (h : s.Ended) : World.canMove s = false := by
  obtain ⟨-, worker, hw, hphase⟩ := h
  simp [World.canMove, hw, hphase]

theorem Ended.gone (h : s.Ended) : s.isWorkerGone = true := by
  obtain ⟨-, worker, hw, hphase⟩ := h
  simp [isWorkerGone, hw, Delivery.isStopped, hphase]

theorem step_close (h : s.Resting) (hc : s.lifecycle ≠ .closed) :
    s.step (.called .close) = (s.closing, []) := by
  obtain ⟨worker, hw, -, -⟩ := h.worker
  simp only [step, h.wait, called, close, hw, closing]

theorem canMove_closing (h : s.Resting) : World.canMove s.closing = true := by
  obtain ⟨worker, hw, hphase, hqueue⟩ := h.worker
  simp [World.canMove, closing, hw, hphase, hqueue]

theorem step_closing_woken (h : s.Resting) : s.closing.step .woken = (s.closing, []) := by
  obtain ⟨worker, hw, hphase, hqueue⟩ := h.worker
  simp [step, woken, closing, isWorkerGone, hw, Delivery.isStopped, hphase]

/-- A close that has waited long enough ends. -/
theorem step_closing_outwaited (h : s.Resting) : ∃ s', s'.Ended ∧
    s.closing.step .outwaited = (s', [.disconnected, .returned (.ok .done)]) := by
  obtain ⟨worker, hw, hphase, hqueue⟩ := h.worker
  refine ⟨(s.closing.step .outwaited).1, ?_, Prod.ext rfl ?_⟩
  · simp [step, outwaited, closing, deliver, hw, Delivery.kill, finished, Ended]
  · simp [step, outwaited, closing, deliver, hw, Delivery.kill, finished, hphase, hqueue,
      Delivery.held, Delivery.queued]

/-- The worker ends, and the close with it. -/
theorem step_closing_drained (h : s.Resting) : ∃ s', s'.Ended ∧ s.closing.step .drained = (s', []) ∧
    ∃ s'', s''.Ended ∧ s'.step .woken = (s'', [.disconnected, .returned (.ok .done)]) := by
  obtain ⟨worker, hw, hphase, hqueue⟩ := h.worker
  have hdrained : s.closing.step .drained =
      ({ s.closing with worker := some { worker with phase := .stopped } }, []) := by
    simp [step, closing, deliver, hw, Delivery.drained, hphase, hqueue, Delivery.setPhase]
  refine ⟨_, ⟨rfl, _, rfl, rfl⟩, hdrained, _, ?_, rfl⟩
  exact ⟨rfl, _, rfl, rfl⟩

end Session

/-! ### The world of a try -/

namespace World

variable {w : World} {number : Nat} {p : Party}

/-- The world once a session is being closed: its worker is ready to end. -/
def closing (w : World) (number : Nat) (p : Party) (alarm : Nat) : World :=
  { w with
    alarm := some alarm
    parties := w.parties.put number ⟨p.session.closing, p.link, none⟩
    ready := w.ready ++ [.worker number] }

/-- The world once the worker has ended, and the session has become `s`. -/
def served (w : World) (number : Nat) (p : Party) (moment : Nat) (s : Session) : World :=
  { w.closing number p moment with
    parties := w.parties.put number ⟨s, p.link, none⟩
    ready := [] }

/-- The world once it is closed. -/
def closed (w : World) (number : Nat) (p : Party) (l : Link) (s : Session) (ready : List Actor) :
    World :=
  { w with
    notes := .closed :: w.notes
    links := w.links.put p.link { l with closed := true }
    parties := w.parties.put number ⟨s, p.link, none⟩
    ready := ready }

variable {l : Link} {moment : Nat}

/-- The end of a close gives up the link. -/
theorem moveParty_disconnected {w : World} {p : Party} (hp : w.parties.get? number = some p)
    (hl : w.links.get? p.link = some l) {e : Event} {s : Session} (hs : s.Ended)
    (hstep : p.session.step e = (s, [.disconnected, .returned (.ok .done)])) :
    w.moveParty number e =
      { w.closed number p l s w.ready with outcome := some (.ok .done) } := by
  rw [moveParty_of hp hstep]
  simp [hs.gone, hs.canMove, act, closeLink, note, hl, closed]

theorem get?_closing (w : World) (number : Nat) (p : Party) (moment : Nat) :
    (w.closing number p moment).parties.get? number = some ⟨p.session.closing, p.link, none⟩ :=
  Table.get?_put_self _ _ _

/-- To look again does not end the close. -/
theorem attend_closing (number moment : Nat) (h : w.Still) (hr : p.session.Resting) (bound : Nat) :
    attend number (bound + 1) (w.closing number p moment) =
      if moment ≤ w.now then
        attend number bound ((w.closing number p moment).moveParty number .outwaited)
      else (w.closing number p moment, none) := by
  have hwoken : (w.closing number p moment).moveParty number .woken = w.closing number p moment := by
    rw [moveParty_of (get?_closing w number p moment) (Session.step_closing_woken hr)]
    simp [closing, Table.put_put]
  have ho : (w.closing number p moment).outcome = none := h.outcome
  have hf : (w.closing number p moment).flight = none := h.flight
  rw [attend]
  simp only [ho, hf, hwoken, Option.isSome_none, Bool.false_or, Bool.false_eq_true, if_false]
  rfl

/-- The owner looks, and the operation ends. -/
theorem attend_ended {v v' : World} (ho : v.outcome = none) (hf : v.flight = none)
    (hend : v.moveParty number .woken = v') {r : Except SessionError Report}
    (hr : v'.outcome = some r) : attend number attention v = (v', some r) := by
  unfold attention
  rw [attend]
  simp only [ho, hf, hend, hr, Option.isSome_some, Bool.true_or, if_true]
  exact attend_returned hr 6

/-- The worker is served, and ends. -/
theorem serveReady_closing (moment : Nat) (h : w.Still)
    (hr : p.session.Resting) (hnot : Actor.worker number ∉ w.ready) {s : Session} (hs : s.Ended)
    (hstep : p.session.closing.step .drained = (s, [])) :
    (w.closing number p moment).serveReady = w.served number p moment s := by
  obtain ⟨worker, hw, hphase, hqueue⟩ := hr.worker
  -- the others who are ready have nothing to do
  have hothers : w.ready.foldl World.serve (w.closing number p moment) = w.closing number p moment := by
    refine foldl_serve fun a ha => ?_
    obtain ⟨k, u, rfl, hu, hmove⟩ := h.ready a ha
    have hne : number ≠ k := fun he => hnot (he ▸ ha)
    exact serveWorker_of_resting ((Table.get?_put_of_ne _ hne _).trans hu) (h.flights k u hu) hmove
  have hload : Party.load ⟨p.session.closing, p.link, none⟩ = 1 := by
    simp [Party.load, Session.closing, hw, hphase, hqueue, Delivery.held]
  have hserve : (w.closing number p moment).serveWorker number =
      { w.closing number p moment with parties := w.parties.put number ⟨s, p.link, none⟩ } := by
    unfold serveWorker
    simp only [get?_closing, hload, serveUpTo, serveOne, Session.canMove_closing hr]
    have hworker : p.session.closing.worker = some worker := hw
    simp only [hworker, hqueue, List.isEmpty_nil, if_true]
    rw [moveParty_of (get?_closing w number p moment) hstep]
    simp [hs.gone, hs.canMove, closing, Table.put_put]
  unfold serveReady
  have hready : (w.closing number p moment).ready = w.ready ++ [.worker number] := rfl
  simp only [hready, List.foldl_append, hothers, List.foldl_cons, List.foldl_nil, World.serve, hserve]
  congr 1
  refine List.filter_eq_nil_iff.mpr fun a ha => ?_
  rw [List.contains_iff_mem.mpr ha]
  simp

theorem close_of_resting (h : w.Still) (hp : w.parties.get? number = some p)
    (hl : w.links.get? p.link = some l) (hr : p.session.Resting)
    (hc : p.session.lifecycle ≠ .closed) (hnot : Actor.worker number ∉ w.ready) (timeout : Span) :
    ∃ s ready, s.Ended ∧ (∀ a ∈ ready, a ∈ w.ready ∨ a = .worker number) ∧
      w.close number timeout = w.closed number p l s ready := by
  have hmoved : ({ w with alarm := some (w.now + timeout.ticks) } : World).moveParty number
      (.called .close) = w.closing number p (w.now + timeout.ticks) := by
    rw [moveParty_of (w := { w with alarm := some (w.now + timeout.ticks) }) hp
      (Session.step_close hr hc), h.flights number p hp]
    simp [closing, Session.canMove_closing hr, hnot]
  have hlook := attend_closing number (w.now + timeout.ticks) h hr
  unfold close
  by_cases hz : timeout.ticks = 0
  · obtain ⟨s, hs, hstep⟩ := Session.step_closing_outwaited hr
    have hend := moveParty_disconnected (get?_closing w number p (w.now + timeout.ticks)) hl hs hstep
    have hattend := (hlook 7).trans (if_pos (by omega))
    rw [hend, attend_returned rfl 6] at hattend
    refine ⟨s, w.ready ++ [.worker number], hs, by simp, ?_⟩
    rw [callUntil_of hmoved fun fuel => await_found hattend (fuel + 4)]
    simp [release, closed, closing, h.flight, h.alarm, h.outcome, Table.put_put]
  · obtain ⟨s₁, hs₁, hdrained, s, hs, hwoken⟩ := Session.step_closing_drained hr
    have hpending := (hlook 7).trans (if_neg (by omega))
    have hserved := serveReady_closing (w.now + timeout.ticks) h hr hnot hs₁ hdrained
    have hready : (w.closing number p (w.now + timeout.ticks)).ready ≠ [] := by simp [closing]
    -- the owner looks again, and finds that the worker has ended
    have hend := moveParty_disconnected (p := ⟨s₁, p.link, none⟩)
      (w := w.served number p (w.now + timeout.ticks) s₁) (Table.get?_put_self _ _ _) hl hs hwoken
    have hattend := attend_ended (v := w.served number p (w.now + timeout.ticks) s₁)
      h.outcome h.flight hend rfl
    refine ⟨s, [], hs, by simp, ?_⟩
    rw [callUntil_of hmoved fun fuel => (await_serve hpending hready (fuel + 4)).trans
      ((congrArg (await (attend number attention) (fuel + 4)) hserved).trans
        (await_found hattend (fuel + 3)))]
    simp [release, closed, served, closing, h.flight, h.alarm, h.outcome, Table.put_put]

/-! ### One try -/

/-- The world with a new link, and a new session that uses it. -/
def joined (w : World) (l : Link) (s : Session) : World :=
  { w with
    links := w.links.put w.links.rows.length l
    parties := w.parties.put w.parties.rows.length ⟨s, w.links.rows.length, none⟩ }

theorem still_joined (h : w.Still) (l : Link) (s : Session) : (w.joined l s).Still where
  watch := h.watch
  ready := fun a ha => by
    obtain ⟨k, u, rfl, hu, hmove⟩ := h.ready a ha
    exact ⟨k, u, rfl, h.numbered.get?_put_next hu _, hmove⟩
  numbered := (h.numbered.put_next _).1
  flights := fun k u hu => by
    replace hu : (w.parties.put w.parties.rows.length _).get? k = some u := hu
    rw [Table.get?_put] at hu
    split at hu
    · rw [← Option.some.inj hu]
    · exact h.flights k u hu
  links := (h.links.put_next _).1
  flight := h.flight
  alarm := h.alarm
  outcome := h.outcome

theorem get?_joined (w : World) (l : Link) (s : Session) :
    (w.joined l s).parties.get? w.parties.rows.length = some ⟨s, w.links.rows.length, none⟩ ∧
      (w.joined l s).links.get? w.links.rows.length = some l :=
  ⟨Table.get?_put_self _ _ _, Table.get?_put_self _ _ _⟩

theorem joined_put (w : World) (l : Link) (s s' : Session) :
    { w.joined l s with
      parties := (w.joined l s).parties.put w.parties.rows.length ⟨s', w.links.rows.length, none⟩ } =
        w.joined l s' := by
  simp [joined, Table.put_put]

/-- Of a quiet world some may be ready no more, and the new worker may be if it
cannot move. -/
theorem still_settled (h : w.Still) {l : Link} {s : Session} (hmove : canMove s = false)
    {ready : List Actor} (hready : ∀ a ∈ ready, a ∈ w.ready ∨ a = .worker w.parties.rows.length)
    (b : Broker) (now waits : Nat) (notes : List Note) :
    Still { w.joined l s with broker := b, now := now, waits := waits, notes := notes, ready := ready } :=
  have hjoined := still_joined h l s
  { watch := h.watch
    ready := fun a ha => by
      rcases hready a ha with ha | rfl
      · exact hjoined.ready a ha
      · exact ⟨_, _, rfl, (get?_joined w l s).1, hmove⟩
    numbered := hjoined.numbered
    flights := hjoined.flights
    links := hjoined.links
    flight := h.flight
    alarm := h.alarm
    outcome := h.outcome }

/-- What one try does: a request over a link of its own, which is closed
afterwards, as the session is that used it. -/
structure Tried (q : Request) (w w' : World) (answer : Answer) : Prop where
  still : w'.Still
  fate : Fate w.broker w.reading q w'.broker answer
  reading : w'.reading = w.reading
  notes : w'.notes = .closed :: .request q :: w.notes
  link : ∃ l, l.closed = true ∧ w'.links = w.links.put w.links.rows.length l
  party : ∃ s, s.Ended ∧
    w'.parties = w.parties.put w.parties.rows.length ⟨s, w.links.rows.length, none⟩

end World

/-- The request of a recovery. -/
def Recovery.request (r : Recovery) : Request := .finish r.token.txid r.token.identity r.outcome

/-- The settings are valid, and the token is for them. -/
structure Recovery.Valid (r : Recovery) : Prop where
  config : r.config.validate = .ok ()
  txid : r.token.txid = r.config.txid
  producer : 0 ≤ r.token.producer
  epoch : 0 ≤ r.token.epoch

/-- What the answer to its request is to a recovery. -/
def Recovery.result (r : Recovery) : Answer → Except SessionError Unit
  | .ok _ => .ok ()
  | .error e => .error (.ofBroker r.token.txid (some r.token.identity) e)

theorem SessionConfig.requestTimeout_pos {config : SessionConfig} (h : config.validate = .ok ()) :
    0 < config.requestTimeout.nanos := by
  by_contra hz
  have hzero : config.requestTimeout.isZero = true := by
    simp only [Span.isZero, beq_iff_eq]
    omega
  rw [validate_ok_iff, fault?] at h
  split at h
  · cases h
  · split at h
    · cases h
    · cases h

namespace World

variable {w : World} {number : Nat} {p : Party}

theorem finishFrom_spec {r : Recovery} (hr : r.Valid) (h : w.Still) {faults : List Fault}
    (hplan : MildPlan .finish faults) :
    ∃ moment b answer ready faults' s, Fate w.broker w.reading r.request b answer ∧ ready ⊆ w.ready ∧
      MildPlan .finish faults' ∧ s.Resting ∧ s.lifecycle = .ready ∧
      (w.joined ⟨r.latency, false, faults⟩ (.fresh r.config)).finishFrom w.parties.rows.length r =
        ({ w.joined ⟨r.latency, false, faults'⟩ s with
            now := moment
            broker := b
            ready := ready
            waits := w.waits + 1
            notes := .request r.request :: w.notes }, r.result answer) := by
  have hrequest : r.request = .finish r.config.txid r.token.identity r.outcome := by
    rw [Recovery.request, hr.txid]
  -- the session adopts the identity
  obtain ⟨s₁, hresume, hadopted⟩ := Session.step_resumeFrom hr.txid hr.producer hr.epoch
  have hcall₁ := call_of_returned (still_joined h ⟨r.latency, false, faults⟩ (.fresh r.config))
    (get?_joined w _ _).1 hresume hadopted.canMove
  -- it ends the transaction
  have htimeout : 0 < s₁.config.requestTimeout.nanos := by
    rw [hadopted.config]
    exact SessionConfig.requestTimeout_pos hr.config
  obtain ⟨moment, b, answer, ready, faults', hfate, hready, hplan', hcall₂⟩ :=
    call_of_asked (still_joined h ⟨r.latency, false, faults⟩ s₁) (get?_joined w _ _).1
      (get?_joined w _ _).2 rfl (q := r.request)
      (s := { s₁ with lifecycle := r.outcome.ending, wait := .finish r.outcome .ready })
      (by simp [hrequest]) hplan htimeout
      (by rw [hrequest]; exact Session.step_finish hadopted r.outcome) hadopted.canMove
  have hfits := hfate.fits
  rw [hrequest] at hfits
  obtain ⟨s₂, hfinished, hresting, hlife, -⟩ := Session.step_finished hadopted hfits
  replace hcall₂ := hcall₂ s₂ _ hfinished hresting.canMove
  refine ⟨moment, b, answer, ready, faults', s₂, hfate, hready, hplan', hresting, hlife, ?_⟩
  have hresult : asUnit (some (Session.verdict r.config.txid r.token.identity answer)) =
      r.result answer := by
    cases answer <;> simp [Session.verdict, asUnit, Recovery.result, hr.txid]
  simp only [joined_put] at hcall₁
  simp only [finishFrom, hcall₁, hcall₂, hresult]
  simp [joined, Table.put_put]

theorem recoverOnce_spec {r : Recovery} (hr : r.Valid) {s : Recovering} (h : s.world.Still)
    (hplan : MildPlan .finish s.faults) :
    ∃ w' answer faults, Tried r.request s.world w' answer ∧ MildPlan .finish faults ∧
      recoverOnce r s = (⟨w', s.tries + 1, faults⟩, r.result answer) := by
  obtain ⟨moment, b, answer, ready, faults, s₂, hfate, hready, hplan', hresting, hlife, hfinish⟩ :=
    finishFrom_spec hr h hplan
  -- the session is closed
  have hstill := still_settled h (l := ⟨r.latency, false, faults⟩) hresting.canMove
    (fun a ha => Or.inl (hready ha)) b moment (s.world.waits + 1)
    (.request r.request :: s.world.notes)
  obtain ⟨hparty, hlink⟩ := get?_joined s.world ⟨r.latency, false, faults⟩ s₂
  obtain ⟨s₃, ready', hended, hready', hclose⟩ := close_of_resting hstill hparty hlink hresting
    (by simp [hlife]) (fun hm => h.next_not_ready (hready hm)) r.config.closeTimeout
  have hclosed := still_settled h (l := ⟨r.latency, true, faults⟩) hended.canMove
    (fun a ha => (hready' a ha).imp (fun h => hready h) id) b moment (s.world.waits + 1)
    (.closed :: .request r.request :: s.world.notes)
  refine ⟨_, answer, faults, ⟨hclosed, hfate, rfl, rfl, ⟨_, rfl, rfl⟩, _, hended, rfl⟩, hplan', ?_⟩
  have htry : recoverOnce r s =
      let finished := (s.world.joined ⟨r.latency, false, s.faults⟩ (.fresh r.config)).finishFrom
        s.world.parties.rows.length r
      let w := finished.1.close s.world.parties.rows.length r.config.closeTimeout
      (⟨w, s.tries + 1, ((w.links.get? s.world.links.rows.length).map (·.faults)).getD []⟩,
        finished.2) := by
    simp only [recoverOnce, Session.build_ok hr.config]
    rfl
  rw [htry, hfinish]
  simp only [hclose]
  simp [closed, joined, Table.put_put]

/-! ### Many tries -/

/-- What `n` tries do: each makes the request once, over a link of its own that
is closed afterwards. -/
structure Tries (q : Request) (n : Nat) (w w' : World) : Prop where
  still : w'.Still
  reading : w'.reading = w.reading
  notes : w'.notes = (List.replicate n [.closed, .request q]).flatten ++ w.notes
  links : w'.links.rows.length = w.links.rows.length + n
  parties : w'.parties.rows.length = w.parties.rows.length + n
  oldLinks : ∀ k l, w.links.get? k = some l → w'.links.get? k = some l
  oldParties : ∀ k p, w.parties.get? k = some p → w'.parties.get? k = some p
  own : ∀ i < n, (∃ l, w'.links.get? (w.links.rows.length + i) = some l ∧ l.closed = true) ∧
    ∃ s, w'.parties.get? (w.parties.rows.length + i) =
      some ⟨s, w.links.rows.length + i, none⟩ ∧ s.Ended

variable {q : Request} {n : Nat} {w' w'' : World}

theorem tries_none (h : w.Still) : Tries q 0 w w :=
  ⟨h, rfl, rfl, rfl, rfl, fun _ _ h => h, fun _ _ h => h, fun _ hi => absurd hi (Nat.not_lt_zero _)⟩

theorem Tries.next (h : Tries q n w w') {answer : Answer} (ht : Tried q w' w'' answer) :
    Tries q (n + 1) w w'' := by
  obtain ⟨l, hclosed, hlinks⟩ := ht.link
  obtain ⟨s, hended, hparties⟩ := ht.party
  have hnumbered := h.still.links
  have hnumbered' := h.still.numbered
  have keepLink : ∀ k l', w'.links.get? k = some l' → w''.links.get? k = some l' := fun k l' hk => by
    rw [hlinks]
    exact hnumbered.get?_put_next hk l
  have keepParty : ∀ k p', w'.parties.get? k = some p' → w''.parties.get? k = some p' :=
    fun k p' hk => by
      rw [hparties]
      exact hnumbered'.get?_put_next hk _
  refine ⟨ht.still, ht.reading.trans h.reading, ?_, ?_, ?_, fun k l hk => keepLink k l (h.oldLinks k l hk),
    fun k p hk => keepParty k p (h.oldParties k p hk), fun i hi => ?_⟩
  · rw [ht.notes, h.notes, List.replicate_succ, List.flatten_cons]
    rfl
  · rw [hlinks, (hnumbered.put_next l).2, h.links]
    rfl
  · rw [hparties, (hnumbered'.put_next _).2, h.parties]
    rfl
  · rcases Nat.lt_or_eq_of_le (Nat.le_of_lt_succ hi) with hi | rfl
    · obtain ⟨⟨l', hl', hc⟩, s', hs', he⟩ := h.own i hi
      exact ⟨⟨l', keepLink _ _ hl', hc⟩, s', keepParty _ _ hs', he⟩
    · rw [hlinks, hparties, h.links, h.parties]
      exact ⟨⟨l, Table.get?_put_self _ _ _, hclosed⟩, s, Table.get?_put_self _ _ _, hended⟩

/-- To wait is to do nothing. -/
theorem Tries.sleep (h : Tries q n w w') (span : Span) :
    Tries q n w (w'.sleep span) ∧ (w'.sleep span).broker = w'.broker := by
  obtain ⟨moment, ready, hready, hsleep⟩ := sleep_of_still h.still span
  rw [hsleep]
  have hstill : Still { w' with now := moment, ready := ready } :=
    ⟨⟨h.still.watch, fun a ha => h.still.ready a (hready ha), h.still.numbered, h.still.flights⟩,
      h.still.links, h.still.flight, h.still.alarm, h.still.outcome⟩
  exact ⟨⟨hstill, h.reading, h.notes, h.links, h.parties, h.oldLinks, h.oldParties, h.own⟩, rfl⟩

end World

/-! ### The effect -/

/-- Nothing has been done, or what one request does that is answered
positively. -/
def Handled (b : Broker) (now : Span) (q : Request) (b' : Broker) : Prop :=
  b' = b ∨ (b' = (b.handle now q).1 ∧ (b.handle now q).2 = .ok .finished)

/-- The logs and the transactions are the same. -/
def Broker.Unchanged (b b' : Broker) : Prop :=
  b'.topics = b.topics ∧ b'.coordinator.transactions = b.coordinator.transactions

section
variable {b b' b'' : Broker} {now : Span} {r : Recovery} {answer : Answer}

theorem finish_ok_reply {x : String} {id : Identity} {o : Outcome} {reply : Reply}
    (h : (b.handle now (.finish x id o)).2 = .ok reply) : reply = .finished := by
  rcases fits_finish (h ▸ fits_handle b now (.finish x id o)) with he | ⟨e, he⟩
  · exact Except.ok.inj he
  · cases he

/-- One more request: if it is answered positively it has been handled, if it
may be repeated it has been handled or not, and else nothing has been done. -/
theorem Handled.next (hs : b.coordinator.Sound) (h : Handled b now r.request b')
    (hfate : Fate b' now r.request b'' answer) :
    (∀ reply, answer = .ok reply → b'' = (b.handle now r.request).1 ∧
        (b.handle now r.request).2 = .ok .finished) ∧
      ∀ e, answer = .error e → (e.isRetriable = true → Handled b now r.request b'') ∧
        (e.isRetriable = false → b.Unchanged b'') := by
  -- an answer that says that the request may be repeated
  have repeatable : ∀ {e : BrokerError} {b₁ : Broker}, e.isRetriable = true →
      Handled b now r.request b₁ →
      (∀ reply, (Except.error e : Answer) = .ok reply → b₁ = (b.handle now r.request).1 ∧
        (b.handle now r.request).2 = .ok .finished) ∧
      ∀ e', (Except.error e : Answer) = .error e' →
        (e'.isRetriable = true → Handled b now r.request b₁) ∧
        (e'.isRetriable = false → b.Unchanged b₁) := by
    intro e b₁ he hb
    refine ⟨fun _ h => (nomatch h), fun e' h => ⟨fun _ => hb, fun hno => ?_⟩⟩
    rw [← Except.error.inj h, he] at hno
    cases hno
  rcases h with rfl | ⟨rfl, hok⟩
  · cases hfate with
    | refused e he => exact repeatable he (Or.inl rfl)
    | lost e he reply hr => exact repeatable he (Or.inr ⟨rfl, finish_ok_reply hr ▸ hr⟩)
    | answered =>
      refine ⟨fun reply h => ⟨rfl, finish_ok_reply h ▸ h⟩, fun e h => ?_⟩
      obtain ⟨htopics, htransactions, hsame⟩ := Broker.finish_refused h
      exact ⟨fun he => Or.inl (hsame he), fun _ => ⟨htopics, htransactions⟩⟩
  · have hagain : (b.handle now r.request).1.handle now r.request =
        ((b.handle now r.request).1, .ok .finished) := Broker.finish_again hs hok now
    cases hfate with
    | refused e he => exact repeatable he (Or.inr ⟨rfl, hok⟩)
    | lost e he reply hr =>
      rw [hagain]
      exact repeatable he (Or.inr ⟨rfl, hok⟩)
    | answered =>
      rw [hagain]
      exact ⟨fun _ _ => ⟨rfl, hok⟩, fun _ h => (nomatch h)⟩

end

theorem Recovery.result_error {r : Recovery} {answer : Answer} {e : SessionError}
    (h : r.result answer = .error e) :
    ∃ e', answer = .error e' ∧ e.isRetriable = e'.isRetriable := by
  cases answer with
  | ok reply => cases h
  | error e' =>
    refine ⟨e', rfl, ?_⟩
    rw [← Except.error.inj h]
    cases e' <;> rfl

/-- A success has the effect of one request, which is answered positively. A
failure has none, or that one if it may be repeated. -/
structure OneEffect (b : Broker) (now : Span) (q : Request) (b' : Broker)
    (result : Except SessionError Unit) : Prop where
  done : result = .ok () → b' = (b.handle now q).1 ∧ (b.handle now q).2 = .ok .finished
  failed : ∀ e, result = .error e → b.Unchanged b' ∨
    (e.isRetriable = true ∧ b' = (b.handle now q).1 ∧ (b.handle now q).2 = .ok .finished)

/-- The last try leaves one effect behind. -/
theorem Handled.effect {b b' b'' : Broker} {now : Span} {r : Recovery} {answer : Answer}
    (hs : b.coordinator.Sound) (h : Handled b now r.request b')
    (hfate : Fate b' now r.request b'' answer) :
    OneEffect b now r.request b'' (r.result answer) ∧
      ∀ e, r.result answer = .error e → e.isRetriable = true → Handled b now r.request b'' := by
  obtain ⟨hok, herror⟩ := h.next hs hfate
  have hagain : ∀ e, r.result answer = .error e → e.isRetriable = true →
      Handled b now r.request b'' := fun e he hretriable => by
    obtain ⟨e', ha, hsame⟩ := Recovery.result_error he
    exact (herror e' ha).1 (hsame ▸ hretriable)
  refine ⟨⟨fun hres => ?_, fun e he => ?_⟩, hagain⟩
  · cases answer with
    | ok reply => exact hok reply rfl
    | error e => cases hres
  · by_cases hretriable : e.isRetriable = true
    · rcases hagain e he hretriable with rfl | hdone
      · exact Or.inl ⟨rfl, rfl⟩
      · exact Or.inr ⟨hretriable, hdone⟩
    · obtain ⟨e', ha, hsame⟩ := Recovery.result_error he
      exact Or.inl ((herror e' ha).2 (by simpa [hsame] using hretriable))

/-- What a recovery has done: to the world, and to the broker. -/
structure Recovered (r : Recovery) (w : World) (after : World × Nat × Except SessionError Unit) :
    Prop where
  /-- Each try makes the request once, over a link of its own, and closes it. -/
  tried : World.Tries r.request after.2.1 w after.1
  once : 1 ≤ after.2.1
  bounded : after.2.1 ≤ r.policy.maxRetries + 1
  effect : OneEffect w.broker w.reading r.request after.1.broker after.2.2

namespace World

/-- The tries from one on. -/
theorem recovers_from {r : Recovery} (hr : r.Valid) {w : World} (hs : w.broker.coordinator.Sound)
    (wait : Nat → Span) (left : Nat) : ∀ (attempt : Nat) (s : Recovering), MildPlan .finish s.faults →
    Tries r.request s.tries w s.world → Handled w.broker w.reading r.request s.world.broker →
    ∃ s' result, retryFrom (recoverOnce r)
        (fun attempt s => { s with world := s.world.sleep (wait attempt) }) attempt left s = (s', result) ∧
      Tries r.request s'.tries w s'.world ∧ s.tries < s'.tries ∧ s'.tries ≤ s.tries + left + 1 ∧
      OneEffect w.broker w.reading r.request s'.world.broker result := by
  induction left with
  | zero =>
    intro attempt s hplan htries hhandled
    obtain ⟨w', answer, faults, htried, -, heq⟩ := recoverOnce_spec hr htries.still hplan
    obtain ⟨heffect, -⟩ := hhandled.effect hs (htries.reading ▸ htried.fate)
    refine ⟨⟨w', s.tries + 1, faults⟩, r.result answer, ?_, htries.next htried,
      Nat.lt_succ_self _, Nat.le_refl _, heffect⟩
    rw [retryFrom, heq]
  | succ left ih =>
    intro attempt s hplan htries hhandled
    obtain ⟨w', answer, faults, htried, hplan', heq⟩ := recoverOnce_spec hr htries.still hplan
    obtain ⟨heffect, hagain⟩ := hhandled.effect hs (htries.reading ▸ htried.fate)
    have hnext := htries.next htried
    have hfirst : s.tries + 1 ≤ s.tries + (left + 1) + 1 := by omega
    cases hres : r.result answer with
    | ok u =>
      rw [hres] at heq heffect
      exact ⟨_, _, retryFrom_of_ok heq _ _, hnext, Nat.lt_succ_self _, hfirst, heffect⟩
    | error e =>
      rw [hres] at heq heffect
      by_cases hretriable : e.isRetriable = true
      · -- after a wait comes the next try
        obtain ⟨hslept, hbroker⟩ := hnext.sleep (wait attempt)
        obtain ⟨s', result, hloop, htries', hlt, hle, heffect'⟩ := ih (attempt + 1)
          ⟨w'.sleep (wait attempt), s.tries + 1, faults⟩ hplan' hslept
          (hbroker ▸ hagain e hres hretriable)
        have hlt : s.tries + 1 < s'.tries := hlt
        have hle : s'.tries ≤ s.tries + 1 + left + 1 := hle
        refine ⟨s', result, ?_, htries', by omega, by omega, heffect'⟩
        rw [retryFrom_succ_of_retriable heq hretriable]
        exact hloop
      · exact ⟨_, _, retryFrom_of_not_retriable heq (by simpa using hretriable) _ _, hnext,
          Nat.lt_succ_self _, hfirst, heffect⟩

/-- **A recovery has at most one effect.** -/
theorem recovers {config : BrokerConfig} {ops : List Broker.Op} {w : World}
    (hb : w.broker = (Broker.start config).run ops) (h : w.Still) {r : Recovery} (hr : r.Valid)
    {faults : List Fault} (hplan : MildPlan .finish faults) :
    Recovered r w (w.recover r faults) := by
  have hs : w.broker.coordinator.Sound := by
    rw [hb]
    exact Broker.sound_run (Coordinator.sound_start _) ops
  obtain ⟨s, result, heq, htries, hlt, hle, heffect⟩ := recovers_from hr hs
    (fun attempt => r.policy.jittered (r.share attempt) attempt) r.policy.maxRetries 0
    ⟨w, 0, faults⟩ hplan (tries_none h) (Or.inl rfl)
  have hrecover : w.recover r faults = (s.world, s.tries, result) := by
    unfold recover retryJittered
    rw [heq]
  rw [hrecover]
  exact ⟨htries, hlt, by simpa using hle, heffect⟩

/-- A broker with a transaction that was left open. -/
def leftOpen : List Broker.Op :=
  [.createTopic "T" 1, .request .zero (.init "tx" (.ofSecs 10)),
    .request .zero (.enroll "tx" ⟨1000, 0⟩ [⟨"T", 0⟩])]

/-- The recovery that commits it. -/
def commitsLeftOpen : Recovery where
  token := ⟨"tx", 1000, 0⟩
  config := { SessionConfig.default with txid := "tx" }
  outcome := .commit
  policy := .default
  share := fun _ => 0
  latency := some (.ofMillis 5)

/-- The first answer is lost, and the second request is handled again. -/
theorem recovers_leftOpen : ((Broker.start .default).run leftOpen).coordinator.describe "tx" ≠ none ∧
    Recovered commitsLeftOpen
      { World.start .default 0 with broker := (Broker.start .default).run leftOpen }
      (World.recover { World.start .default 0 with broker := (Broker.start .default).run leftOpen }
        commitsLeftOpen [⟨.finish, .after (.unavailable "gone"), 0, 1⟩]) := by
  have hvalid : commitsLeftOpen.Valid := ⟨rfl, rfl, by decide, by decide⟩
  refine ⟨by decide, recovers rfl ?_ hvalid ?_⟩
  · exact ⟨⟨rfl, by simp [World.start], Table.numbered_empty, by simp [World.start]⟩,
      Table.numbered_empty, rfl, rfl, rfl⟩
  · intro f hf _ e he
    obtain rfl := List.mem_singleton.mp hf
    rcases he with he | he
    · cases he
    · rw [← Mishap.after.inj he]
      rfl

end World
end FencedLog
