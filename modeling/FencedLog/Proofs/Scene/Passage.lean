/-
# The session in calm weather

What the session itself does in calm weather keeps the scene on its course: a
send that is accepted is routed to its partition and joins the loads, a flush is
waited for, and once everything is acknowledged the broker is asked to commit.
When the commit has succeeded the transaction is over (`Lands`): the logs have
got the loads and their marks, and each send was told its place.

Key definitions: `History.Primed`, `History.Heeds`, `Origin.Tells`, `Lands`.
Key theorems: `Sails.call`, `Sails.hear_own`, `Sails.wake`, `Lands.act`,
`Sails.act`, `Sails.run`.
-/
import FencedLog.Proofs.Scene.Calm

namespace FencedLog

variable {o : Origin} {ours : String → Prop} {sends sends' : List Sent} {acked : List Receipt}
  {w w' : Worker} {h h' : History} {s s₁ s' : Session} {own : Line} {a : Act}
  {e : Event} {q : Request} {r : Except SessionError Report} {b : Daybook}

/-! ### Events of the session -/

/-- The session has taken an event of its own: it stands at `s'`, and this is
left on its line and in the book. -/
structure History.Heeds (h h' : History) (s' : Session) (own : Line) (b : Daybook) : Prop where
  session : h'.scene.session = s'
  chronicle : h'.scene.chronicle = h.scene.chronicle
  work : h'.scene.work = h.scene.work
  own : h'.scene.own = own
  book : h'.book = b

/-- An act that is an event of the session, whose line is free. -/
structure History.Primed (h : History) (a : Act) (e : Event) : Prop where
  event : h.scene.event? a = some e
  act : ∃ call, h.scene.act a = ({ h.scene with own := .idle, call := call } : Scene).perform e

namespace History

theorem primed_call (op : Operation) (hc : h.scene.Coupled)
    (hw : h.scene.session.wait = .nothing) :
    h.Primed (.call op) (.called op) := by
  have hown : h.scene.own = .idle := by
    have hs := hc.own
    rwa [show h.scene.session.stance.request? = none by
      simp only [Stance.request?, Session.stance, hw], Line.serves_none] at hs
  refine ⟨rfl, some ⟨op, h.scene.session.lifecycle, none⟩, ?_⟩
  simp only [Scene.act, hw, ← hown]

theorem primed_hear {answer : Answer} (hl : h.scene.own = .replied answer) :
    h.Primed (.hear .own) (.answered answer) := by
  refine ⟨by simp only [Scene.event?, hl], h.scene.call, ?_⟩
  simp only [Scene.act, hl]

theorem primed_wake (hc : h.scene.Coupled) (hr : h.scene.session.stance.request? = none) :
    h.Primed .wake .woken := by
  have hown : h.scene.own = .idle := by
    have hs := hc.own
    rwa [hr, Line.serves_none] at hs
  refine ⟨rfl, h.scene.call, ?_⟩
  simp only [Scene.act, ← hown]

namespace Primed

variable (hp : h.Primed a e)
include hp

theorem took {effects : List Effect} (hs : h.scene.session.step e = (s', effects)) :
    (h.act a).book = effects.foldl Daybook.feel (h.book.called h.scene.session e) ∧
      ∃ call, (h.act a).scene = effects.foldl Scene.feel
        { h.scene with session := s', own := .idle, call := call } := by
  obtain ⟨call, hact⟩ := hp.act
  refine ⟨?_, call, hact.trans ?_⟩
  · simp only [History.act, hp.event, Option.elim, Daybook.step, hs]
  · simp only [Scene.perform, hs]

theorem silent (hs : h.scene.session.step e = (s', [])) :
    h.Heeds (h.act a) s' .idle (h.book.called h.scene.session e) := by
  obtain ⟨hbook, call, hscene⟩ := hp.took hs
  exact ⟨hscene ▸ rfl, hscene ▸ rfl, hscene ▸ rfl, hscene ▸ rfl, hbook⟩

theorem asked (hs : h.scene.session.step e = (s', [.asked q])) :
    h.Heeds (h.act a) s' (.sent q) (h.book.called h.scene.session e) := by
  obtain ⟨hbook, call, hscene⟩ := hp.took hs
  exact ⟨hscene ▸ rfl, hscene ▸ rfl, hscene ▸ rfl, hscene ▸ rfl, hbook⟩

theorem returned (hs : h.scene.session.step e = (s', [.returned r])) :
    h.Heeds (h.act a) s' .idle ((h.book.called h.scene.session e).returned r) := by
  obtain ⟨hbook, call, hscene⟩ := hp.took hs
  have keeps : ∀ σ : Scene, (σ.returned r).session = σ.session ∧
      (σ.returned r).chronicle = σ.chronicle ∧ (σ.returned r).work = σ.work ∧
      (σ.returned r).own = σ.own := by
    intro σ
    unfold Scene.returned
    split
    · exact ⟨rfl, rfl, rfl, rfl⟩
    · split <;> exact ⟨rfl, rfl, rfl, rfl⟩
  obtain ⟨h₁, h₂, h₃, h₄⟩ := keeps { h.scene with session := s', own := .idle, call := call }
  exact ⟨hscene ▸ h₁, hscene ▸ h₂, hscene ▸ h₃, hscene ▸ h₄, hbook⟩

end Primed
end History

/-! ### Under way -/

/-- A worker with more records in its queue, or with a flush. -/
structure Worker.Gets (w w' : Worker) (ps : List Pending) : Prop where
  phase : w'.phase = w.phase
  registered : ∀ p, w'.Registered p ↔ w.Registered p
  queue : pendings w'.queue = pendings w.queue ++ ps
  bound : misrouted ps = []

theorem Worker.Gets.refl (w : Worker) : w.Gets w [] :=
  ⟨rfl, fun _ => Iff.rfl, (List.append_nil _).symm, rfl⟩

theorem Worker.gets_send (w : Worker) (x : Sent) (count : String → Nat) (rotation : Nat) :
    w.Gets (Stance.queue w (.send (x.pending count rotation))) [x.pending count rotation] :=
  ⟨rfl, registered_queue_send w _, pendings_append _ _, rfl⟩

theorem Worker.gets_flush (w : Worker) {tail : List Message}
    (ht : tail = [] ∨ tail = [.barrier .flush]) (flushed : Bool) :
    w.Gets { w with queue := w.queue ++ tail, flushed := flushed } [] := by
  refine ⟨rfl, Worker.Alike.registered ⟨tail, flushed, ht, rfl⟩, ?_, rfl⟩
  rw [pendings_append]
  rcases ht with rfl | rfl <;> rfl

namespace Sails

/-- The session goes on, and its worker may have got more to do. -/
theorem turn (hs : Sails o ours sends acked w h) (hh : h.Heeds (h.act a) s' own b)
    (hsteers : s'.Steers ours o.broker o.count o.txid o.identity) (hworker : s'.worker = some w')
    (hstarted : s'.shared.started = h.scene.session.shared.started) {ps : List Pending}
    (hgets : w.Gets w' ps) (hloads : o.loads sends' = o.loads sends ++ routed ps)
    (htakes : ∀ f ∈ routed ps, o.broker.Takes ours f)
    (haccepted : b.accepted = o.accepted ++ sends') (hcompleted : b.completed = h.book.completed)
    (hvoyage : ∀ claimed carried, o.Carries ours claimed carried h.scene.chronicle.broker →
      Voyage o ours sends' claimed carried h.scene.chronicle.broker s' own b.call)
    (hb : o.Bears ours acked w h) :
    Sails o ours sends' acked w' (h.act a) where
  coupled := (hs.coupled.act a).2
  agrees := Scene.agrees_act hs.agrees a
  steers := hh.session ▸ hsteers
  worker := hh.session ▸ hworker
  hauls := by
    rw [hh.session, hh.work, hstarted, hloads]
    exact hs.hauls.follow hgets.phase hgets.registered hgets.queue hgets.bound
  voyage := by
    rw [hh.session, hh.work, hh.own, hh.book, hh.chronicle]
    refine hvoyage _ _ (Broker.Carries.congr hb (fun p => ?_) fun p => ?_)
    · rw [Worker.Claims, Worker.Claims, hgets.registered, hgets.phase]
    · simp only [Worker.landed, hgets.phase]
  takes := fun f hf => by
    rw [hloads] at hf
    exact (List.mem_append.mp hf).elim (hs.takes f) (htakes f)
  accepted := hh.book ▸ haccepted
  completed := by
    rw [hh.book, hcompleted]
    exact hs.completed

/-- The session goes on, and nothing was sent. -/
theorem stay (hs : Sails o ours sends acked w h) (hh : h.Heeds (h.act a) s' own b)
    (hsteers : s'.Steers ours o.broker o.count o.txid o.identity) (hworker : s'.worker = some w)
    (hstarted : s'.shared.started = h.scene.session.shared.started)
    (haccepted : b.accepted = h.book.accepted) (hcompleted : b.completed = h.book.completed)
    (hvoyage : ∀ claimed carried, o.Carries ours claimed carried h.scene.chronicle.broker →
      Voyage o ours sends claimed carried h.scene.chronicle.broker s' own b.call)
    (hb : o.Bears ours acked w h) :
    Sails o ours sends acked w (h.act a) :=
  hs.turn hh hsteers hworker hstarted (.refl w) (List.append_nil _).symm
    (fun _ hf => absurd hf List.not_mem_nil) (haccepted.trans hs.accepted) hcompleted hvoyage hb

/-- A send that has its partition is accepted, or waits for room. -/
theorem sent (hs : Sails o ours sends acked w h) (hl : h.scene.session.lifecycle = .inTransaction)
    (hi : h.scene.session.inherited = o.inherited)
    (hb : o.Bears ours acked w h)
    (hp : h.Primed a e) {x : Sent} (hx : x.Arrives ours o.broker o.count (o.turned sends))
    (hs₁ : s₁.Steers ours o.broker o.count o.txid o.identity) (hr : h.scene.session.Readies s₁)
    (hrot : s₁.rotation = (x.assign o.count (o.turned sends)).2)
    (hstep : h.scene.session.step e =
      s₁.push (.send (x.pending o.count (o.turned sends))) .sent) {lc : Lifecycle}
    (hcall : (h.book.called h.scene.session e).call =
      some ⟨.send x.draft x.ticket x.present, lc, none⟩) :
    ∃ sends' w', Sails o ours sends' acked w' (h.act a) := by
  have hcalled := Daybook.called_eq h.book h.scene.session e
  have hw : s₁.worker = some w := hr.worker.trans hs.worker
  rw [← o.turned_append] at hrot
  rcases Session.push_of_alive hw hs.hauls.alive (.send (x.pending o.count (o.turned sends))) .sent
    with ⟨-, he⟩ | ⟨-, he⟩
  · refine ⟨sends ++ [x], _, hs.turn (hp.returned (hstep.trans he))
      (hs₁.congr rfl rfl rfl) rfl hr.started (w.gets_send x _ _)
      (o.loads_append sends x) ?_ ?_ ?_ ?_ hb⟩
    · intro f hf
      rw [List.mem_singleton.mp hf]
      exact hx.takes
    · rw [Daybook.returned_send hcall, hcalled, hs.accepted, List.append_assoc]
    · rw [Daybook.returned_send hcall, hcalled]
    · refine fun claimed carried hb => .underway (hr.lifecycle.trans hl) (hr.inherited.trans hi)
        (.nothing rfl hrot fun r hfinish => ?_) hb
      rw [Daybook.returned_send hcall] at hfinish
      simp at hfinish
  · refine ⟨sends, w, hs.stay (hp.silent (hstep.trans he))
      (hs₁.congr rfl rfl rfl) hw hr.started ?_ ?_
      (fun claimed carried hb => .underway (hr.lifecycle.trans hl) (hr.inherited.trans hi)
        (.crowded x lc rfl hrot hx hcall) hb) hb⟩
    · rw [hcalled]
    · rw [hcalled]

/-- A flush is asked for, or waits for room. -/
theorem flushes (hs : Sails o ours sends acked w h)
    (hl : h.scene.session.lifecycle = .inTransaction)
    (hi : h.scene.session.inherited = o.inherited)
    (hr : h.scene.session.rotation = o.turned sends)
    (hb : o.Bears ours acked w h)
    (hp : h.Primed a e) {next : AfterFlush} (hn : next = .report ∨ next = .finish .commit)
    (flushed : Bool) (hstep : h.scene.session.step e =
      ({ h.scene.session with worker := some { w with flushed := flushed } } : Session).push
        (.barrier .flush) (.flush next)) :
    ∃ w', Sails o ours sends acked w' (h.act a) := by
  have hcalled := Daybook.called_eq h.book h.scene.session e
  have hst := hs.steers
  rcases Session.push_of_alive
    (s := { h.scene.session with worker := some { w with flushed := flushed } }) rfl hs.hauls.alive
    (.barrier .flush) (.flush next) with ⟨-, he⟩ | ⟨-, he⟩
  · refine ⟨_, hs.turn (hp.silent (hstep.trans he))
      (hst.congr rfl rfl rfl) rfl rfl
      (w.gets_flush (Or.inr rfl) flushed) (List.append_nil _).symm
      (fun _ hf => absurd hf List.not_mem_nil) ?_ ?_
      (fun claimed carried hb => .underway hl hi (.flushing next hn (Or.inr rfl) hr) hb) hb⟩
    · rw [hcalled, hs.accepted]
    · rw [hcalled]
  · refine ⟨{ w with flushed := flushed }, hs.turn (hp.silent (hstep.trans he))
      (hst.congr rfl rfl rfl) rfl rfl
      (by simpa using w.gets_flush (Or.inl rfl) flushed) (List.append_nil _).symm
      (fun _ hf => absurd hf List.not_mem_nil) ?_ ?_
      (fun claimed carried hb => .underway hl hi (.flushing next hn (Or.inl rfl) hr) hb) hb⟩
    · rw [hcalled, hs.accepted]
    · rw [hcalled]

end Sails

/-! ### The end -/

/-- Each send was told its place, which is where its lane comes to lie. -/
def Origin.Tells (o : Origin) (sends : List Sent) (done : List (Ticket × Completion)) : Prop :=
  ∃ told : List (Ticket × Placement), done = o.completed ++ told.map (fun x => (x.1, .ok x.2)) ∧
    ∀ p, told.filter (·.2.spot.1 = p) = placements p (o.broker.next p) (lane p (o.loads sends))

/-- The sends are committed. -/
structure Lands (o : Origin) (ours : String → Prop) (sends : List Sent) (h : History) : Prop where
  coupled : h.scene.Coupled
  txid : h.scene.session.config.txid = o.txid
  lifecycle : h.scene.session.lifecycle = .ready
  wait : h.scene.session.wait = .nothing
  call : h.book.call = some ⟨.finish .commit, .inTransaction, some (.ok .done)⟩
  settled : o.Settled ours sends h.scene.chronicle.broker
  takes : ∀ f ∈ o.loads sends, o.broker.Takes ours f
  accepted : h.book.accepted = o.accepted ++ sends
  tells : o.Tells sends h.book.completed

namespace Sails

/-- Once everything is acknowledged each send was told its place. -/
theorem tells (hs : Sails o ours sends acked w h) (hw : w.cargo = []) :
    o.Tells sends h.book.completed := by
  refine ⟨acked.map Receipt.ack, ?_, fun p => ?_⟩
  · rw [hs.completed, List.map_map]
    rfl
  · rw [List.filter_map, ← hs.lane_acked hw p, ← acks_receipts, ← hs.hauls.places p]
    rfl

/-- The commit succeeds. -/
theorem lands (hs : Sails o ours sends acked w h) (hp : h.Primed a e)
    (hstep : h.scene.session.step e = h.scene.session.conclude .commit)
    (hcall : (h.book.called h.scene.session e).call =
      some ⟨.finish .commit, .inTransaction, none⟩) (hw : w.cargo = [])
    (hb : o.Settled ours sends h.scene.chronicle.broker) : Lands o ours sends (h.act a) := by
  have hcalled := Daybook.called_eq h.book h.scene.session e
  have hh := hp.returned (r := .ok .done) hstep
  have hbook := hh.book.trans (Daybook.returned_ok hcall (by simp) .done)
  rw [hcalled] at hbook
  exact {
    coupled := (hs.coupled.act a).2
    txid := hh.session ▸ hs.steers.txid
    lifecycle := hh.session ▸ rfl
    wait := hh.session ▸ rfl
    call := hbook ▸ rfl
    settled := hh.chronicle ▸ hb
    takes := hs.takes
    accepted := hbook ▸ hs.accepted
    tells := hbook ▸ hs.tells hw }

/-- The call that is running, if the session waits for something. -/
theorem running (hs : Sails o ours sends acked w h) (hw : h.scene.session.wait ≠ .nothing) :
    ∃ op lc, h.book.call = some ⟨op, lc, none⟩ ∧
      Running lc h.scene.session.lifecycle h.scene.session.wait op := by
  obtain ⟨op, lc, hcall, hrun⟩ := hs.coupled.running hw
  exact ⟨op, lc, hs.agrees.call.symm.trans hcall, hrun⟩

/-- What arrives now would have arrived at first. -/
theorem arrives (hs : Sails o ours sends acked w h) {claimed : TopicPartition → Prop}
    {carried : List Freight} (hb : o.Carries ours claimed carried h.scene.chronicle.broker)
    {x : Sent} (hx : x.Arrives ours h.scene.chronicle.broker
      (h.scene.session.reckon h.scene.chronicle.broker) h.scene.session.rotation) :
    x.Arrives ours o.broker o.count h.scene.session.rotation := by
  have hcount : h.scene.session.reckon h.scene.chronicle.broker x.draft.topic =
      o.count x.draft.topic := by
    rw [← hs.steers.reckons _ hx.topic, Session.reckon, Session.reckon,
      Broker.Carries.breadth hb hx.topic]
  obtain ⟨hthere, hasked, htakes⟩ := hx
  rw [hcount] at hthere hasked
  rw [Sent.assign_congr hcount] at htakes
  exact ⟨hthere, hasked, Broker.Carries.takes hb htakes⟩

/-- **The owner calls.** -/
theorem call (hs : Sails o ours sends acked w h) {op : Operation}
    (hcalm : h.scene.Calm ours (.call op)) :
    ∃ sends' w', Sails o ours sends' acked w' (h.act (.call op)) := by
  by_cases hbusy : h.scene.session.wait ≠ .nothing
  · obtain ⟨hstep, hcalled⟩ := @Session.called_busy _ op hbusy h.book
    have hact : h.scene.act (.call op) = h.scene.perform (.called op) := by
      rw [Scene.perform, hstep, Scene.act]
      split
      · contradiction
      · rfl
    obtain ⟨hscene, hbook⟩ := History.act_idle hact rfl hcalled hstep
    exact ⟨sends, w, hs.same hscene hbook⟩
  have hwait : h.scene.session.wait = .nothing := not_ne_iff.mp hbusy
  have hp := History.primed_call op hs.coupled hwait
  have hcalled : (h.book.called h.scene.session (.called op)).call =
      some ⟨op, h.scene.session.lifecycle, none⟩ := by
    rw [Daybook.called, hwait]
  have hstep : h.scene.session.step (.called op) = h.scene.session.called op := by
    rw [Session.step, hwait]
  cases hs.voyage with
  | underway hl hi hw hb =>
    cases hw with
    | nothing _ hr hc =>
      cases op with
      | send draft ticket present =>
        have hx := hs.arrives hb hcalm.2
        have hsend : h.scene.session.called (.send draft ticket present) =
            h.scene.session.send draft ticket present := if_pos hl
        have hst := hs.steers
        rcases hst.send hx with ⟨hn, he⟩ | ⟨s₁, hs₁, hready, hrot, he⟩
        · rw [hr] at hx
          have hbook := Daybook.called_eq h.book h.scene.session (.called (.send draft ticket present))
          refine ⟨sends, w, hs.stay (hp.asked ((hstep.trans hsend).trans he))
            (hst.congr rfl rfl rfl) hs.worker rfl (by rw [hbook])
            (by rw [hbook]) (fun claimed carried hb => .underway hl hi
              (.routing ⟨draft, ticket, present⟩ rfl hr hx hn (by simp)) hb) hb⟩
        · rw [hr] at hx hrot he
          exact hs.sent hl hi hb hp hx hs₁ hready hrot ((hstep.trans hsend).trans he) hcalled
      | flush =>
        refine ⟨sends, hs.flushes hl hi hr hb hp (Or.inl rfl) false (hstep.trans ?_)⟩
        simp only [Session.called, hl, Session.askFlush, hs.worker]
        rfl
      | finish outcome =>
        cases outcome with
        | commit =>
          refine ⟨sends, hs.flushes hl hi hr hb hp (Or.inr rfl) false (hstep.trans ?_)⟩
          simp only [Session.called, Session.finish, hl, Session.askFlush, hs.worker]
        | abort => exact hcalm.elim
      | _ => exact hcalm.elim
    | routing _ hw => simp [hw] at hwait
    | crowded _ _ hw => simp [hw] at hwait
    | flushing _ _ hw => rcases hw with hw | hw <;> simp [hw] at hwait
  | asked _ _ _ hw => simp [hw] at hwait
  | granted _ hw => simp [hw] at hwait
  | refused _ _ _ hw => simp [hw] at hwait

/-- **The session hears of what it has asked for.** -/
theorem hear_own (hs : Sails o ours sends acked w h) :
    (∃ sends' w', Sails o ours sends' acked w' (h.act (.hear .own))) ∨
      Lands o ours sends (h.act (.hear .own)) := by
  have hserves := hs.coupled.own
  cases hl : h.scene.own with
  | replied answer =>
    have hp := History.primed_hear hl
    have hvoyage := hs.voyage
    have hst := hs.steers
    rw [hl] at hvoyage hserves
    cases hvoyage with
    | underway hlc hi ha hb =>
      left
      obtain ⟨x, hw, hr, hx, -, ho⟩ := ha.routes hserves (by simp)
      obtain ⟨infos, rfl, hlength⟩ := ho answer rfl
      obtain ⟨op, lc, hcall, hrun⟩ := hs.running (by simp [hw])
      rw [hw] at hrun
      cases hrun
      rw [← hr] at hx
      obtain ⟨s₁, hs₁, hready, hrot, he⟩ := hst.routed hx hw hlength
      rw [hr] at hx hrot he
      exact hs.sent hlc hi hb hp hx hs₁ hready hrot he hcall
    | asked _ _ _ _ ho => cases ho
    | granted hlc hw ho hb =>
      right
      obtain rfl := Line.replied.inj ho
      obtain ⟨op, lc, hcall, hrun⟩ := hs.running (by simp [hw])
      rw [hw] at hrun
      cases hrun
      have hstep : h.scene.session.step (.answered (.ok .finished)) =
          h.scene.session.conclude .commit := by
        simp only [Session.step, Session.answered, hw]
      exact hs.lands hp hstep hcall (hs.rests (by simp [hlc])).2.2 hb
    | refused hlc hi hr hw reason ho hn hb =>
      left
      obtain rfl := Line.replied.inj ho
      obtain ⟨op, lc, hcall, hrun⟩ := hs.running (by simp [hw])
      rw [hw] at hrun
      cases hrun
      have hstep : h.scene.session.step (.answered (.error (.invalidState reason))) =
          ({ h.scene.session with lifecycle := .inTransaction, wait := .nothing },
            [.returned (.error (.ofBroker h.scene.session.config.txid h.scene.session.identity
              (.invalidState reason)))]) := by
        simp only [Session.step, Session.answered, hw, Session.finishRefused]
        rfl
      have hh := hp.returned hstep
      rw [show h.book.called h.scene.session _ = h.book from rfl,
        Daybook.returned_error hcall] at hh
      exact ⟨sends, w, hs.stay hh (hst.congr rfl rfl rfl) hs.worker rfl rfl
        rfl (fun claimed carried hb => .underway rfl hi (.nothing rfl hr fun _ _ => hn) hb) hb⟩
  | idle | sent _ =>
    have he : h.scene.event? (.hear .own) = none := by simp only [Scene.event?, hl]
    obtain ⟨hscene, hbook⟩ := History.hear_silent he
    exact Or.inl ⟨sends, w, hs.same hscene hbook⟩

/-- A flush has been reached: the worker has nothing left. -/
theorem flushed (hs : Sails o ours sends acked w h) {next : AfterFlush}
    (hw : h.scene.session.wait = .flush next) (hf : w.flushed = true) :
    w.phase = .idle ∧ w.cargo = [] := by
  obtain ⟨hq, hp⟩ := hs.mans.shape.reached next hw hf
  replace hp := hp.resolve_right hs.hauls.alive
  refine ⟨hp, ?_⟩
  rw [Worker.cargo, hp, hq]
  rfl

/-- A session that has started nothing has nothing to commit. -/
theorem settled_of_not_started (hs : Sails o ours sends acked w h) (hi : w.phase = .idle)
    (hw : w.cargo = []) (hst : h.scene.session.shared.started = false) (ho : ∀ p, ¬ o.held p)
    (hb : o.Bears ours acked w h) :
    o.Settled ours sends h.scene.chronicle.broker := by
  have hnone : ∀ p, lane p (acked.map Receipt.freight) = [] := fun p => by
    by_contra hl
    have := hs.hauls.started.mpr ⟨p, Or.inl (hs.hauls.known p hl)⟩
    simp [hst] at this
  have hlanded : w.landed h.scene.work = [] := landed_of_phase (by simp [hi]) _
  have hmarks : ∀ p, ¬ o.Marks sends p := fun p hm =>
    hm.elim (ho p) fun hl => hl (hs.lane_acked hw p ▸ hnone p)
  refine (Broker.Carries.settled hb hmarks fun p _ => ?_).congr (fun _ => Iff.rfl) fun p => ?_
  · rw [hlanded, List.append_nil, hnone]
  · rw [hlanded, List.append_nil, hs.lane_acked hw]

/-- The flush before the commit has been reached. -/
theorem commits (hs : Sails o ours sends acked w h)
    (hi : h.scene.session.inherited = o.inherited)
    (hb : o.Bears ours acked w h)
    (hw : h.scene.session.wait = .flush (.finish .commit))
    (hr : h.scene.session.rotation = o.turned sends) (hf : w.flushed = true)
    (ho : o.inherited = false → ∀ p, ¬ o.held p) (hp : h.Primed .wake .woken)
    (hstep : h.scene.session.step .woken = h.scene.session.finishFlushed .commit) :
    Sails o ours sends acked w (h.act .wake) ∨ Lands o ours sends (h.act .wake) := by
  have hst := hs.steers
  obtain ⟨hidle, hcargo⟩ := hs.flushed hw hf
  obtain ⟨op, lc, hcall, hrun⟩ := hs.running (by simp [hw])
  rw [hw] at hrun
  cases hrun with
  | flushing _ _ hfollows =>
    cases hfollows with
    | finish _ hlc =>
      subst hlc
      rw [hst.finishFlushed] at hstep
      split at hstep
      · rename_i hask
        rw [Bool.or_eq_true, hi] at hask
        exact Or.inl (hs.stay (hp.asked hstep) (hst.congr rfl rfl rfl)
          hs.worker rfl rfl rfl (fun claimed carried hb => .asked rfl hi hr rfl rfl hask hb) hb)
      · rename_i hask
        rw [Bool.or_eq_true, not_or, Bool.not_eq_true, Bool.not_eq_true, hi] at hask
        exact Or.inr (hs.lands hp hstep hcall hcargo
          (hs.settled_of_not_started hidle hcargo hask.2 (ho hask.1) hb))

/-- **The session looks again** for room, or for the flush it waits for. -/
theorem wake (hs : Sails o ours sends acked w h) (ho : o.inherited = false → ∀ p, ¬ o.held p) :
    (∃ sends' w', Sails o ours sends' acked w' (h.act .wake)) ∨
      Lands o ours sends (h.act .wake) := by
  have hst := hs.steers
  have idle : h.scene.session.woken = (h.scene.session, []) →
      ∃ sends' w', Sails o ours sends' acked w' (h.act .wake) := fun hstep => by
    obtain ⟨hscene, hbook⟩ := History.act_idle (a := .wake) rfl rfl rfl hstep
    exact ⟨sends, w, hs.same hscene hbook⟩
  cases hs.voyage with
  | underway hl hi hw hb =>
    cases hw with
    | nothing hw => exact Or.inl (idle (by simp only [Session.woken, hw]))
    | routing x hw => exact Or.inl (idle (by simp only [Session.woken, hw]))
    | crowded x lc hw hr hx hc =>
      left
      have hp := History.primed_wake hs.coupled
        (by simp only [Stance.request?, Session.stance, hw])
      have hrot := hr.trans (o.turned_append sends x)
      refine hs.sent hl hi hb hp hx hst ⟨rfl, rfl, rfl, rfl, rfl⟩ hrot ?_ hc
      simp only [Session.step, Session.woken, hw]
    | flushing next hn hw hr =>
      have hp := History.primed_wake hs.coupled
        (by rcases hw with hw | hw <;> simp only [Stance.request?, Session.stance, hw])
      rcases hw with hw | hw
      · have hsame : ({ h.scene.session with worker := some { w with flushed := w.flushed } } :
            Session) = h.scene.session := by
          rw [show ({ w with flushed := w.flushed } : Worker) = w from rfl, ← hs.worker]
        refine Or.inl ⟨sends, hs.flushes hl hi hr hb hp hn w.flushed ?_⟩
        rw [hsame]
        simp only [Session.step, Session.woken, hw]
      by_cases hf : w.flushed = true
      · have hstep : h.scene.session.step .woken = h.scene.session.flushed next := by
          simp only [Session.step, Session.woken, hw, hs.worker, hf, ↓reduceIte]
        rcases hn with rfl | rfl
        · left
          obtain ⟨op, lc, hcall, hrun⟩ := hs.running (by simp [hw])
          rw [hw] at hrun
          cases hrun with
          | flushing _ _ hfollows =>
            cases hfollows
            have hh := hp.returned hstep
            rw [show h.book.called h.scene.session .woken = h.book from rfl,
              Daybook.returned_ok hcall (by simp)] at hh
            exact ⟨sends, w, hs.stay hh (hst.congr rfl rfl rfl) hs.worker
              rfl rfl rfl (fun claimed carried hb =>
                .underway hl hi (.nothing rfl hr fun r hc => by simp at hc) hb) hb⟩
        · exact (hs.commits hi hb hw hr hf ho hp hstep).imp_left fun hs' => ⟨sends, w, hs'⟩
      · have hgone : h.scene.session.isWorkerGone = false := by
          simp only [Session.isWorkerGone, hs.worker, Delivery.isStopped]
          have := hs.hauls.alive
          cases hp : w.phase <;> simp_all
        refine Or.inl (idle ?_)
        simp only [Session.woken, hw, hs.worker, hf, hgone, Bool.false_eq_true, ↓reduceIte]
  | asked _ _ _ hw => exact Or.inl (idle (by simp only [Session.woken, hw]))
  | granted _ hw => exact Or.inl (idle (by simp only [Session.woken, hw]))
  | refused _ _ _ hw => exact Or.inl (idle (by simp only [Session.woken, hw]))

end Sails

/-! ### After the commit -/

namespace Lands

theorem work_idle (hd : Lands o ours sends h) : h.scene.work = .idle := by
  cases hw : h.scene.session.worker with
  | none => exact (hd.coupled.unmanned hw).2
  | some w =>
    refine Scene.work_idle hd.coupled hw ?_
    unfold Worker.request?
    rcases (hd.coupled.rests hd.lifecycle hd.wait hw).1 with hp | hp <;> rw [hp]

theorem own_idle (hd : Lands o ours sends h) : h.scene.own = .idle := by
  have hs := hd.coupled.own
  rwa [show h.scene.session.stance.request? = none by
    simp only [Stance.request?, Session.stance, hd.wait], Line.serves_none] at hs

/-- A round of a worker that has nothing to do. -/
theorem round (hd : Lands o ours sends h) (visible : Nat) :
    h.scene.session.step (.round visible) = (h.scene.session, []) := by
  rw [Session.step, Session.deliver]
  cases hw : h.scene.session.worker with
  | none => rfl
  | some w =>
    have hsame : Delivery.round ⟨w, h.scene.session.shared⟩ visible =
        (⟨w, h.scene.session.shared⟩, []) := by
      obtain ⟨hp | hp, hq⟩ := hd.coupled.rests hd.lifecycle hd.wait hw
      · exact Delivery.round_of_empty hp (hq hp) visible
      · exact Delivery.round_of_busy (by simp [hp]) visible
    simp only [hsame, ← hw]
    rfl

/-- The broker may go on, and nothing else. -/
theorem onward (hd : Lands o ours sends h) (hc : h'.scene.Coupled)
    (hsession : h'.scene.session = h.scene.session) (hbook : h'.book = h.book)
    (hb : o.Settled ours sends h'.scene.chronicle.broker) : Lands o ours sends h' where
  coupled := hc
  txid := hsession ▸ hd.txid
  lifecycle := hsession ▸ hd.lifecycle
  wait := hsession ▸ hd.wait
  call := hbook ▸ hd.call
  settled := hb
  takes := hd.takes
  accepted := hbook ▸ hd.accepted
  tells := hbook ▸ hd.tells

/-- **Once it is over nothing more happens**, in calm weather. -/
theorem act (hd : Lands o ours sends h) (hcalm : h.scene.Calm ours a) :
    Lands o ours sends (h.act a) := by
  have same : (h.act a).scene = h.scene → (h.act a).book = h.book → Lands o ours sends (h.act a) :=
    fun hscene hbook => hd.onward (hscene ▸ hd.coupled) (by rw [hscene]) hbook
      (by rw [hscene]; exact hd.settled)
  cases a with
  | call op =>
    have hl := hd.lifecycle
    cases op with
    | send => simp [hcalm.1] at hl
    | flush => simp [show h.scene.session.lifecycle = _ from hcalm] at hl
    | finish outcome =>
      cases outcome with
      | commit => simp [show h.scene.session.lifecycle = _ from hcalm] at hl
      | abort => exact hcalm.elim
    | _ => exact hcalm.elim
  | others op =>
    have haside : h.scene.chronicle.broker.Aside ours o.txid op := hd.txid ▸ hcalm
    exact hd.onward (hd.coupled.act (.others op)).2 rfl rfl (hd.settled.aside haside)
  | reach side now lost =>
    refine same ?_ rfl
    cases side <;> simp only [History.act, Scene.act, hd.own_idle, hd.work_idle]
  | hear side =>
    have he : h.scene.event? (.hear side) = none := by
      cases side <;> simp only [Scene.event?, hd.own_idle, hd.work_idle]
    obtain ⟨hscene, hbook⟩ := History.hear_silent he
    exact same hscene hbook
  | wake =>
    have hstep : h.scene.session.step .woken = (h.scene.session, []) := by
      simp only [Session.step, Session.woken, hd.wait]
    obtain ⟨hscene, hbook⟩ := History.act_idle (a := .wake) rfl rfl rfl hstep
    exact same hscene hbook
  | round visible =>
    obtain ⟨hscene, hbook⟩ := History.act_idle (a := .round visible) rfl rfl rfl (hd.round visible)
    exact same hscene hbook
  | _ => exact hcalm.elim

end Lands

/-! ### The passage -/

/-- **An act in calm weather keeps the transaction on its course**, or brings
it to its end. -/
theorem Sails.act (hs : Sails o ours sends acked w h) (hcalm : h.scene.Calm ours a)
    (ho : o.inherited = false → ∀ p, ¬ o.held p) :
    (∃ sends' acked' w', Sails o ours sends' acked' w' (h.act a)) ∨ Lands o ours sends (h.act a) := by
  cases a with
  | call op =>
    obtain ⟨sends', w', hs'⟩ := hs.call hcalm
    exact Or.inl ⟨sends', acked, w', hs'⟩
  | others op => exact Or.inl ⟨sends, acked, w, hs.others hcalm⟩
  | reach side now lost =>
    obtain rfl : lost = none := hcalm
    cases side with
    | own => exact Or.inl ⟨sends, acked, w, hs.reach_own now⟩
    | work => exact Or.inl ⟨sends, acked, w, hs.reach_work now⟩
  | hear side =>
    cases side with
    | own => exact hs.hear_own.imp_left fun ⟨sends', w', hs'⟩ => ⟨sends', acked, w', hs'⟩
    | work =>
      obtain ⟨acked', w', hs'⟩ := hs.hear_work
      exact Or.inl ⟨sends, acked', w', hs'⟩
  | wake => exact (hs.wake ho).imp_left fun ⟨sends', w', hs'⟩ => ⟨sends', acked, w', hs'⟩
  | round visible =>
    obtain ⟨acked', w', hs'⟩ := hs.round visible
    exact Or.inl ⟨sends, acked', w', hs'⟩
  | _ => exact hcalm.elim

/-- In calm weather a transaction stays on its course until it ends, and stays
as it has ended. -/
theorem Sails.run (ho : o.inherited = false → ∀ p, ¬ o.held p) : ∀ {as : List Act} {h : History},
    (∃ sends acked w, Sails o ours sends acked w h) ∨ (∃ sends, Lands o ours sends h) →
      h.scene.Admits (Scene.Calm ours) as →
      (∃ sends acked w, Sails o ours sends acked w (h.run as)) ∨
        ∃ sends, Lands o ours sends (h.run as)
  | [], _, hv, _ => hv
  | a :: _, h, hv, hcalm => by
    refine Sails.run ho (h := h.act a) ?_ hcalm.2
    rcases hv with ⟨sends, acked, w, hs⟩ | ⟨sends, hd⟩
    · exact (hs.act hcalm.1 ho).imp_right fun hd => ⟨sends, hd⟩
    · exact Or.inr ⟨sends, hd.act hcalm.1⟩

end FencedLog
