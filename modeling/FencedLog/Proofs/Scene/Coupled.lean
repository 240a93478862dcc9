/-
# A session in step with its lines, its worker and its owner

What a session waits for says which call is running and which request is on
its line; what its worker waits for says which request is on the worker's line
(`Coupled`). For the session's transaction an event comes down to one of a few
strides: the chapter goes on, takes up a send, begins anew, or is being ended
(`Stride`).

Key definitions: `Line.Serves`, `Running`, `Coupled`, `Stride`, `Primed`,
`Grounded`.
Key theorems: `Grounded.remanned`, `Grounded.coupled`.
-/
import FencedLog.Proofs.Scene.Agenda
import FencedLog.Proofs.Scene.Basic

namespace FencedLog

/-- The request whose answer a worker waits for. -/
def Worker.request? (w : Worker) : Option Request :=
  match w.phase with
  | .enrolling fresh _ _ => some (.enroll w.txid w.identity fresh)
  | .appending batch _ _ => some (.append w.txid w.identity batch.partition batch.records)
  | .idle | .stopped => none

/-- The line carries this request or an answer to it, or nothing. -/
def Line.Serves : Line → Option Request → Prop
  | .idle, none => True
  | .sent q, some q' => q = q'
  | .replied answer, some q => Fits q answer
  | _, _ => False

theorem Line.serves_none {line : Line} : line.Serves none ↔ line = .idle := by
  cases line <;> simp [Serves]

/-- The message of a send. -/
def Sent.Makes (s : Sent) (p : Pending) : Prop :=
  p.ticket = s.ticket ∧ p.record = s.draft.record s.present ∧
    ∀ target, p.target = .ok target → target.topic = s.draft.topic

/-- What follows a flush that an operation has asked for, when it was called
in lifecycle `lc` and the session stands at `now`. -/
inductive Follows (lc now : Lifecycle) : AfterFlush → Operation → Prop
  | report : Follows lc now .report .flush
  | finish (o : Outcome) (hl : lc = .inTransaction) (hn : now = .inTransaction) :
      Follows lc now (.finish o) (.finish o)

/-- An operation that was called in lifecycle `lc` waits like this, while the
session stands at `now`. -/
inductive Running (lc now : Lifecycle) : Wait → Operation → Prop
  | identity (hn : now = .uninitialized) : Running lc now .identity .init
  | listing (topic : String) : Running lc now (.listing topic) (.listing topic)
  | routing (draft : Draft) (ticket : Ticket) (present : Int) (hn : now = .inTransaction) :
      Running lc now (.routing draft ticket present) (.send draft ticket present)
  | crowded (s : Sent) (p : Pending) (hp : s.Makes p) (hn : now = .inTransaction) :
      Running lc now (.room (.send p) .sent) (.send s.draft s.ticket s.present)
  | beginning (hn : now = .ready) :
      Running lc now (.room (.barrier .newTransaction) .begun) .begin
  | awaiting (next : AfterFlush) (op : Operation) (h : Follows lc now next op) :
      Running lc now (.room (.barrier .flush) (.flush next)) op
  | flushing (next : AfterFlush) (op : Operation) (h : Follows lc now next op) :
      Running lc now (.flush next) op
  | finishing (o : Outcome) (hl : lc = .ready ∨ lc = .inTransaction) (hn : now = o.ending) :
      Running lc now (.finish o lc) (.finish o)
  | draining (hn : now = .closed) : Running lc now .drain .close

/-- A session and the worker it has. -/
structure Mans (v : Stance) (w : Worker) (work : Line) : Prop where
  identity : v.identity = some w.identity
  txid : w.txid = v.config.txid
  sound : w.Sound
  shape : Shape v.wait v.lifecycle w
  serves : work.Serves w.request?

/-- What couples a session with its lines, its worker and the running call. -/
structure Coupled (v : Stance) (own work : Line) (call : Option Call) : Prop where
  sane : v.Sane
  running : v.wait ≠ .nothing →
    ∃ op lc, call = some ⟨op, lc, none⟩ ∧ Running lc v.lifecycle v.wait op
  own : own.Serves v.request?
  fresh : v.lifecycle = .uninitialized → v.worker = none
  unmanned : v.worker = none → v.identity = none ∧ work = .idle
  manned : ∀ w, v.worker = some w → Mans v w work

def Scene.Coupled (σ : Scene) : Prop :=
  FencedLog.Coupled σ.session.stance σ.own σ.work σ.call

/-! ### Strides -/

/-- The worker is the same but for a flush. -/
def Worker.Alike (w w' : Worker) : Prop :=
  ∃ tail flushed, (tail = [] ∨ tail = [.barrier .flush]) ∧
    w' = { w with queue := w.queue ++ tail, flushed := flushed }

theorem Worker.Alike.refl (w : Worker) : w.Alike w := ⟨[], w.flushed, Or.inl rfl, by simp⟩

/-- The call has ended a transaction. -/
def Ended (call : Option Call) (o : Outcome) : Prop :=
  ∃ r, call = some ⟨.finish o, .inTransaction, some (.ok r)⟩

/-- The same identity, and the worker of before but for a flush. -/
structure Stays (v v' : Stance) : Prop where
  config : v'.config = v.config
  identity : v'.identity = v.identity
  fatal : v'.fatal = v.fatal
  worker : ∀ w', v'.worker = some w' → ∃ w, v.worker = some w ∧ w.Alike w'

/-- What an event of the session means to its transaction. -/
inductive Stride (v : Stance) (e : Event) (v' : Stance) (chapter chapter' : Chapter)
    (call' : Option Call) : Prop
  /-- Nothing. -/
  | quiet (hk : Stays v v') (hc : chapter' = chapter) (he : ∀ o, ¬ Ended call' o)
      (hi : v'.inherited = v.inherited) (hw : ∀ o back, v'.wait ≠ .finish o back)
      (hr : ∀ next w', v'.wait = .flush next → v'.worker = some w' → w'.flushed = true →
        v.wait = .flush next ∧ v.worker = some w')
      (hl : (v'.lifecycle = v.lifecycle ∧ v'.started = v.started) ∨
        (v'.lifecycle = .ready ∧ v.lifecycle = .ready) ∨ v'.lifecycle = .closed)
  /-- A send is accepted. -/
  | sent (s : Sent) (p : Pending) (hp : s.Makes p)
      (hc : chapter' = { chapter with sends := chapter.sends ++ [s] }) (he : ∀ o, ¬ Ended call' o)
      (hl : v.lifecycle = .inTransaction)
      (hv : v' = { v with wait := .nothing } ∨ ∃ w, v.worker = some w ∧ w.phase ≠ .stopped ∧
        v' = { v with wait := .nothing, worker := some (Stance.queue w (.send p)) })
  /-- A transaction begins. -/
  | begun (w : Worker) (started : Bool) (hw : v.worker = some w) (hl : v.lifecycle = .ready)
      (hp : w.phase ≠ .stopped) (hc : chapter' = .empty) (he : ∀ o, ¬ Ended call' o)
      (hv : v' = { v with
        lifecycle := .inTransaction, wait := .nothing, started := started
        worker := some (Stance.queue w (.barrier .newTransaction)) })
  /-- An identity is taken: the one that the broker has answered with, or one
  that is resumed. -/
  | acquired (id : Identity) (inherited : Bool) (hl : v.lifecycle = .uninitialized)
      (hi : (e = .answered (.ok (.identity id)) ∧ inherited = false) ∨
        (inherited = true ∧ ∃ op, e = .called op ∧ op.resumed? = some id))
      (hc : chapter' = chapter) (he : ∀ o, ¬ Ended call' o)
      (hv : v' = { v with
        lifecycle := .ready, identity := some id, inherited := inherited, wait := .nothing
        worker := some ⟨v.config.txid, id, v.config.maxBatch, [], [], .idle, false⟩ })
  /-- The broker is asked to end the transaction. -/
  | finishing (o : Outcome) (back : Lifecycle) (hc : chapter' = chapter)
      (he : ∀ o, ¬ Ended call' o) (hl : v.lifecycle = back)
      (hr : back = .inTransaction → v.Reached o)
      (hv : v' = { v with lifecycle := o.ending, wait := .finish o back })
  /-- The transaction is over. -/
  | concluded (o : Outcome) (hc : chapter' = chapter) (he : ∀ o', Ended call' o' → o' = o)
      (h : (∃ back, v.wait = .finish o back ∧ e = .answered (.ok .finished)) ∨
        (v.Reached o ∧ v.lifecycle = .inTransaction ∧ ((v.fatal = true ∧ o = .abort) ∨
          (v.fatal = false ∧ v.inherited = false ∧ v.started = false))))
      (hv : v' = { v with
        lifecycle := .ready, inherited := false, wait := .nothing, started := false })
  /-- The broker has refused to end it. -/
  | refused (o : Outcome) (back : Lifecycle) (err : BrokerError) (fatal : Bool)
      (hc : chapter' = chapter) (he : ∀ o, ¬ Ended call' o) (hw : v.wait = .finish o back)
      (ha : e = .answered (.error err))
      (hf : fatal = true ↔ v.fatal = true ∨ (v.identity ≠ none ∧ ∃ x n k, err = .fenced x n k))
      (hv : v' = { v with lifecycle := back, wait := .nothing, fatal := fatal })

/-! ### An event of the session -/

/-- The session is about to take an event: nothing is on its line, and the
event is the call that has just been made, or one that it waits for. -/
structure Primed (v : Stance) (own : Line) (call : Option Call) (e : Event) (op : Operation)
    (lc : Lifecycle) : Prop where
  own : own = .idle
  call : call = some ⟨op, lc, none⟩
  why : (v.wait = .nothing ∧ e = .called op ∧ lc = v.lifecycle) ∨
    (v.wait ≠ .nothing ∧ Running lc v.lifecycle v.wait op ∧ (∀ op', e ≠ .called op') ∧
      (v.request? = none ∨ ∃ q answer, v.request? = some q ∧ e = .answered answer ∧ Fits q answer))

/-- What does not depend on what the session waits for. -/
structure Grounded (v : Stance) (work : Line) : Prop where
  sane : v.Sane
  fresh : v.lifecycle = .uninitialized → v.worker = none
  unmanned : v.worker = none → v.identity = none ∧ work = .idle
  manned : ∀ w, v.worker = some w → Mans v w work

namespace Primed

variable {v : Stance} {own : Line} {call : Option Call} {e : Event} {op : Operation}
  {lc : Lifecycle}

theorem running (h : Primed v own call e op lc) (hw : v.wait ≠ .nothing) :
    Running lc v.lifecycle v.wait op := by
  rcases h.why with ⟨hn, -⟩ | ⟨-, hr, -⟩
  · exact absurd hn hw
  · exact hr

theorem calls (h : Primed v own call e op lc) {op' : Operation} (he : e = .called op') :
    op' = op ∧ lc = v.lifecycle := by
  rcases h.why with ⟨-, hop, hl⟩ | ⟨-, -, hne, -⟩
  · rw [hop] at he
    exact ⟨(Event.called.inj he).symm, hl⟩
  · exact absurd he (hne op')

/-- Whoever sends was called to send, in a transaction. -/
theorem sends (h : Primed v own call e op lc) {p : Pending} (hs : v.Sends e p) :
    ∃ s : Sent, op = .send s.draft s.ticket s.present ∧ s.Makes p ∧
      v.lifecycle = .inTransaction ∧ (∀ next, v.wait ≠ .flush next) ∧
      ∀ o back, v.wait ≠ .finish o back := by
  rcases hs with ⟨draft, ticket, present, hc, ht, hr, htopic⟩ | hw
  · rcases hc with ⟨hw, hl, he⟩ | hw
    · refine ⟨⟨draft, ticket, present⟩, (h.calls he).1.symm, ⟨ht, hr, htopic⟩, hl, ?_, ?_⟩ <;>
        simp [hw]
    · have hrun := h.running (by simp [hw])
      rw [hw] at hrun
      cases hrun with
      | routing _ _ _ hn =>
        refine ⟨⟨draft, ticket, present⟩, rfl, ⟨ht, hr, htopic⟩, hn, ?_, ?_⟩ <;> simp [hw]
  · have hrun := h.running (by simp [hw])
    rw [hw] at hrun
    cases hrun with
    | crowded s _ hp hn =>
      refine ⟨s, rfl, hp, hn, ?_, ?_⟩ <;> simp [hw]

/-- Whoever begins was called to begin, when ready. -/
theorem begins (h : Primed v own call e op lc) (hb : v.Begins e) :
    op = .begin ∧ v.lifecycle = .ready ∧ (∀ next, v.wait ≠ .flush next) ∧
      ∀ o back, v.wait ≠ .finish o back := by
  rcases hb with ⟨hw, hl, he⟩ | hw
  · refine ⟨(h.calls he).1.symm, hl, ?_, ?_⟩ <;> simp [hw]
  · have hrun := h.running (by simp [hw])
    rw [hw] at hrun
    cases hrun with
    | beginning hn =>
      refine ⟨rfl, hn, ?_, ?_⟩ <;> simp [hw]

/-- Whoever flushes was called to flush, or to end a transaction. -/
theorem flushes (h : Primed v own call e op lc) {w : Worker} {next : AfterFlush} {flushed : Bool}
    (hf : v.Flushes e w next flushed)
    (harm : ∀ next, v.wait = .room (.barrier .flush) (.flush next) → w.flushed = false) :
    flushed = false ∧ Follows lc v.lifecycle next op ∧ (∀ next, v.wait ≠ .flush next) ∧
      ∀ o back, v.wait ≠ .finish o back := by
  rcases hf with ⟨hw, hf, hn⟩ | ⟨hw, hf⟩
  · refine ⟨hf, ?_, by simp [hw], by simp [hw]⟩
    rcases hn with ⟨rfl, he⟩ | ⟨o, rfl, he, hl⟩
    · obtain ⟨rfl, -⟩ := h.calls he
      exact .report
    · obtain ⟨rfl, hlc⟩ := h.calls he
      exact .finish o (hlc.trans hl) hl
  · have hrun := h.running (by simp [hw])
    rw [hw] at hrun
    cases hrun with
    | awaiting _ _ hfol => exact ⟨hf.trans (harm next hw), hfol, by simp [hw], by simp [hw]⟩

/-- Who has reached the flush before the end was called to end a transaction. -/
theorem reached (h : Primed v own call e op lc) {o : Outcome} (hr : v.Reached o) :
    op = .finish o ∧ lc = .inTransaction ∧ v.lifecycle = .inTransaction := by
  have hrun := h.running (by simp [hr.1])
  rw [hr.1] at hrun
  cases hrun with
  | flushing _ _ hfol =>
    cases hfol with
    | finish _ hl hn => exact ⟨rfl, hl, hn⟩

/-- Who waits for an end request was called to end a transaction. -/
theorem finishing (h : Primed v own call e op lc) {o : Outcome} {back : Lifecycle}
    (hw : v.wait = .finish o back) : op = .finish o ∧ back = lc ∧
      (back = .ready ∨ back = .inTransaction) ∧ v.lifecycle = o.ending := by
  have hrun := h.running (by simp [hw])
  rw [hw] at hrun
  cases hrun with
  | finishing _ hl hn => exact ⟨rfl, rfl, hl, hn⟩

/-- A neutral operation neither begins, nor sends, nor ends a transaction. -/
theorem neutral (h : Primed v own call e op lc) (hn : v.Neutral e) :
    (∀ draft ticket present, op ≠ .send draft ticket present) ∧ op ≠ .begin ∧
      ∀ o, op = .finish o → lc = .ready := by
  rcases h.why with ⟨-, rfl, hl⟩ | ⟨hw, hrun, he, -⟩
  · cases op with
    | finish o => exact ⟨by simp, by simp, fun _ _ => hl.trans hn⟩
    | begin => exact hn.elim
    | send => exact hn.elim
    | _ => simp
  · have hwait : v.wait = .flush .report ∨ v.wait = .drain ∨ ∃ topic, v.wait = .listing topic := by
      cases e with
      | called op' => exact absurd rfl (he op')
      | _ => exact hn
    rcases hwait with hw | hw | ⟨topic, hw⟩ <;> rw [hw] at hrun
    · cases hrun with
      | flushing _ _ hfol =>
        cases hfol
        simp
    · cases hrun
      simp
    · cases hrun
      simp

end Primed

/-! ### What comes of it -/

namespace Scene

variable {σ : Scene} {op : Operation} {lc : Lifecycle}

theorem returned_error (h : σ.call = some ⟨op, lc, none⟩) (err : SessionError) :
    σ.returned (.error err) = { σ with call := some ⟨op, lc, some (.error err)⟩ } := by
  unfold returned
  rw [h]
  cases op <;> rfl

theorem returned_ok (h : σ.call = some ⟨op, lc, none⟩)
    (hs : ∀ draft ticket present, op ≠ .send draft ticket present) (hb : op ≠ .begin) (r : Report) :
    σ.returned (.ok r) = { σ with call := some ⟨op, lc, some (.ok r)⟩ } := by
  unfold returned
  rw [h]
  cases op with
  | send draft ticket present => exact absurd rfl (hs draft ticket present)
  | begin => exact absurd rfl hb
  | _ => rfl

/-- A scene after an event of the session. -/
structure Turned (σ : Scene) (e : Event) (s' : Session) (τ : Scene) : Prop where
  session : τ.session = s'
  chronicle : τ.chronicle = σ.chronicle
  work : τ.work = σ.work
  own : ∀ answer, τ.own ≠ .replied answer
  coupled : τ.Coupled
  stride : Stride σ.session.stance e τ.session.stance σ.chapter τ.chapter τ.call

theorem turned_of {e : Event} {s' : Session} {v' : Stance} (hv : s'.stance = v') {own' : Line}
    {call' : Option Call} {chapter' : Chapter} (ho : ∀ answer, own' ≠ .replied answer)
    (hc : FencedLog.Coupled v' own' σ.work call')
    (hs : Stride σ.session.stance e v' σ.chapter chapter' call') :
    σ.Turned e s' { σ with session := s', own := own', call := call', chapter := chapter' } := by
  subst hv
  exact ⟨rfl, rfl, rfl, ho, hc, hs⟩

end Scene

section Grounded

open Stance

variable {v v' : Stance} {w w' : Worker} {work own' : Line} {call' : Option Call}

theorem Mans.moves (h : Mans v w work) (hi : v'.identity = v.identity)
    (hc : v'.config = v.config) (hp : w'.phase = w.phase) (ht : w'.txid = w.txid)
    (hid : w'.identity = w.identity) (hs : w'.Sound) (hsh : Shape v'.wait v'.lifecycle w') :
    Mans v' w' work where
  identity := by rw [hi, h.identity, hid]
  txid := by rw [ht, h.txid, hc]
  sound := hs
  shape := hsh
  serves := by
    have hreq : w'.request? = w.request? := by
      unfold Worker.request?
      rw [hp, ht, hid]
    rw [hreq]
    exact h.serves

theorem sane_of (hm : v'.lifecycle.hasIdentity = true → v'.worker ≠ none ∧ v'.identity ≠ none)
    (he : ∀ o, v'.lifecycle = Outcome.ending o → ∃ o back, v'.wait = .finish o back)
    (hr : v'.wait ≠ .nothing → ∃ op lc, Running lc v'.lifecycle v'.wait op) : v'.Sane where
  manned := hm
  ending := he
  flushing := fun o hw => by
    obtain ⟨op, lc, hrun⟩ := hr (by simp [hw])
    rw [hw] at hrun
    cases hrun with
    | flushing _ _ h =>
      cases h with
      | finish _ _ hn => exact hn
  room := fun m next hw => by
    obtain ⟨op, lc, hrun⟩ := hr (by simp [hw])
    rw [hw] at hrun
    cases hrun with
    | crowded s p => exact Or.inl ⟨p, rfl, rfl⟩
    | beginning => exact Or.inr (Or.inl ⟨rfl, rfl⟩)
    | awaiting next => exact Or.inr (Or.inr ⟨next, rfl, rfl⟩)

/-- The session goes on, and so does its worker. -/
theorem Grounded.remanned (hg : Grounded v work) (hi : v'.identity = v.identity)
    (hc : v'.config = v.config) (hwk : v'.worker = none → v.worker = none)
    (hm : v'.lifecycle.hasIdentity = true → v.lifecycle.hasIdentity = true)
    (hf : v'.lifecycle = .uninitialized → v.lifecycle = .uninitialized ∧ v'.worker = v.worker)
    (he : ∀ o, v'.lifecycle = Outcome.ending o → ∃ o back, v'.wait = .finish o back)
    (hr : v'.wait ≠ .nothing →
      ∃ op lc, call' = some ⟨op, lc, none⟩ ∧ Running lc v'.lifecycle v'.wait op)
    (ho : own'.Serves v'.request?)
    (hman : ∀ w', v'.worker = some w' → ∃ w, v.worker = some w ∧ w'.phase = w.phase ∧
      w'.txid = w.txid ∧ w'.identity = w.identity ∧ w'.Sound ∧ Shape v'.wait v'.lifecycle w') :
    Coupled v' own' work call' where
  sane := sane_of (fun h => by
    obtain ⟨hw, hid⟩ := hg.sane.manned (hm h)
    exact ⟨fun hn => hw (hwk hn), hi ▸ hid⟩) he fun hw => by
      obtain ⟨op, lc, -, hrun⟩ := hr hw
      exact ⟨op, lc, hrun⟩
  running := hr
  own := ho
  fresh := fun hl => by
    obtain ⟨hl, hw⟩ := hf hl
    rw [hw]
    exact hg.fresh hl
  unmanned := fun hn => by
    rw [hi]
    exact hg.unmanned (hwk hn)
  manned := fun w' hw' => by
    obtain ⟨w, hw, hp, ht, hid, hs, hsh⟩ := hman w' hw'
    exact (hg.manned w hw).moves hi hc hp ht hid hs hsh

/-- The session goes on with the worker it has. -/
theorem Grounded.coupled (hg : Grounded v work) (hi : v'.identity = v.identity)
    (hc : v'.config = v.config) (hwk : v'.worker = v.worker)
    (hm : v'.lifecycle.hasIdentity = true → v.lifecycle.hasIdentity = true)
    (hf : v'.lifecycle = .uninitialized → v.lifecycle = .uninitialized)
    (he : ∀ o, v'.lifecycle = Outcome.ending o → ∃ o back, v'.wait = .finish o back)
    (hr : v'.wait ≠ .nothing →
      ∃ op lc, call' = some ⟨op, lc, none⟩ ∧ Running lc v'.lifecycle v'.wait op)
    (ho : own'.Serves v'.request?)
    (hsh : ∀ w, v.worker = some w → Shape v.wait v.lifecycle w → Shape v'.wait v'.lifecycle w) :
    Coupled v' own' work call' := by
  refine hg.remanned hi hc (fun hn => hwk ▸ hn) hm (fun hl => ⟨hf hl, hwk⟩) he hr ho fun w hw => ?_
  have h := hg.manned w (hwk ▸ hw)
  exact ⟨w, hwk ▸ hw, rfl, rfl, rfl, h.sound, hsh w (hwk ▸ hw) h.shape⟩

/-- A session that does not wait for the end of its transaction is not ending it. -/
theorem not_ending (hs : v.Sane) (hw : ∀ o back, v.wait ≠ .finish o back) (o : Outcome) :
    v.lifecycle ≠ o.ending := fun hl => by
  obtain ⟨o', back, h⟩ := hs.ending o hl
  exact hw o' back h

/-- The operation ends where the session stands. -/
theorem Grounded.settled (hg : Grounded v work) (hu : v.Unblocked) (call' : Option Call) :
    Coupled { v with wait := .nothing } .idle work call' :=
  hg.coupled rfl rfl rfl id id (fun o hl => absurd hl (not_ending hg.sane hu.2 o))
    (fun h => absurd rfl h) trivial
    fun w hw h => h.settle (fun next hn => hu.1 next w hn hw) (by simp) (by simp)

theorem hasIdentity_ending (o : Outcome) : o.ending.hasIdentity = true := by cases o <;> rfl

/-- Who does not wait for an answer does not wait for an end request. -/
theorem Primed.unasked {own : Line} {call : Option Call} {e : Event} {op : Operation}
    {lc : Lifecycle} (hp : Primed v own call e op lc) (hg : Grounded v work)
    (hr : v.request? = none) (o : Outcome) (back : Lifecycle) : v.wait ≠ .finish o back := by
  intro hw
  have hid : v.identity ≠ none := by
    refine (hg.sane.manned ?_).2
    rw [(hp.finishing hw).2.2.2, hasIdentity_ending]
  unfold request? at hr
  rw [hw] at hr
  simp only [Option.map_eq_none_iff] at hr
  exact hid hr

/-- A worker that starts has nothing to do. -/
theorem Shape.start (hq : w.queue = []) (hp : w.phase = .idle) (lc : Lifecycle) :
    Shape .nothing lc w where
  agenda := fun _ => ⟨false, [], by simp [Worker.agenda, hp, hq, Phase.barrier, resetting, flushing],
    fun h => (nomatch h), fun _ _ => ⟨rfl, rfl, hp⟩⟩
  reached := fun _ h => nomatch h
  armed := fun _ h => nomatch h

/-- The end request is sent, or has been answered: the worker has nothing to do. -/
theorem Shape.ending {o : Outcome} (h : Shape v.wait v.lifecycle w) (hl : v.lifecycle = o.ending)
    {lc' : Lifecycle} (hw : ∀ next, v.wait ≠ .flush next) : Shape .nothing lc' w := by
  have hne : v.lifecycle ≠ .inTransaction ∧ v.lifecycle ≠ .closed := by
    rw [hl]
    cases o <;> simp [Outcome.ending]
  exact (h.relocate (Or.inr (Or.inr (Or.inl hne)))).settle (fun next hn => absurd hn (hw next))
    (by simp) (by simp)

/-- The flush before the end is reached: the worker has nothing to do. -/
theorem Shape.reach {o : Outcome} (h : Shape v.wait v.lifecycle w) (hr : v.Reached o)
    (hw : v.worker = some w) {wait' : Wait} {lc' : Lifecycle} (hf : ∀ next, wait' ≠ .flush next)
    (ha : ∀ next, wait' ≠ .room (.barrier .flush) next) : Shape wait' lc' w := by
  obtain ⟨hwait, w', hw', hflushed⟩ := hr
  rw [hw] at hw'
  obtain rfl := Option.some.inj hw'
  have hset : Shape wait' v.lifecycle w :=
    h.settle (fun _ _ => Or.inl hflushed) hf fun next hn => absurd hn (ha next)
  obtain ⟨hq, hp⟩ := h.reached _ hwait hflushed
  exact hset.relocate (Or.inr (Or.inr (Or.inr ⟨hf, hq, hp⟩)))

end Grounded

end FencedLog
