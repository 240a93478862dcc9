/-
# What one event does to a session

Of a session only its stance matters to its transactions: where it stands,
what it waits for, its identity, its worker, and what it shares with the
worker about errors and starts. An event other than a move of the worker gives
the stance one of the turns below (`turn`): the running operation fails, asks
the broker, queues a message for the worker, or ends.

Key definitions: `Stance`, `Session.stance`, `Stance.Sane`, `Stance.Turn`.
Key theorem: `Session.turn`.
-/
import FencedLog.Proofs.Broker.Run
import FencedLog.Session.Operation

namespace FencedLog

/-- An answer of the kind that the request asks for, or a refusal. -/
def Fits : Request → Answer → Prop
  | _, .error _ => True
  | .init .., .ok (.identity _) => True
  | .enroll .., .ok .enrolled => True
  | .append .., .ok (.appended _) => True
  | .finish .., .ok .finished => True
  | .listing _, .ok (.partitions _) => True
  | _, .ok _ => False

theorem fits_init {x : String} {timeout : Span} {answer : Answer} (h : Fits (.init x timeout) answer) :
    (∃ id, answer = .ok (.identity id)) ∨ ∃ e, answer = .error e := by
  cases answer with
  | error e => exact Or.inr ⟨e, rfl⟩
  | ok r => cases r <;> first | exact h.elim | exact Or.inl ⟨_, rfl⟩

theorem fits_enroll {x : String} {id : Identity} {ps : List TopicPartition} {answer : Answer}
    (h : Fits (.enroll x id ps) answer) : answer = .ok .enrolled ∨ ∃ e, answer = .error e := by
  cases answer with
  | error e => exact Or.inr ⟨e, rfl⟩
  | ok r => cases r <;> first | exact h.elim | exact Or.inl rfl

theorem fits_append {x : String} {id : Identity} {p : TopicPartition} {records : List Record}
    {answer : Answer} (h : Fits (.append x id p records) answer) :
    (∃ base, answer = .ok (.appended base)) ∨ ∃ e, answer = .error e := by
  cases answer with
  | error e => exact Or.inr ⟨e, rfl⟩
  | ok r => cases r <;> first | exact h.elim | exact Or.inl ⟨_, rfl⟩

theorem fits_finish {x : String} {id : Identity} {o : Outcome} {answer : Answer}
    (h : Fits (.finish x id o) answer) : answer = .ok .finished ∨ ∃ e, answer = .error e := by
  cases answer with
  | error e => exact Or.inr ⟨e, rfl⟩
  | ok r => cases r <;> first | exact h.elim | exact Or.inl rfl

theorem fits_listing {topic : String} {answer : Answer} (h : Fits (.listing topic) answer) :
    (∃ infos, answer = .ok (.partitions infos)) ∨ ∃ e, answer = .error e := by
  cases answer with
  | error e => exact Or.inr ⟨e, rfl⟩
  | ok r => cases r <;> first | exact h.elim | exact Or.inl ⟨_, rfl⟩

/-- The broker answers in kind. -/
theorem fits_handle (b : Broker) (now : Span) (q : Request) : Fits q (b.handle now q).2 := by
  unfold Broker.handle
  split
  · cases q with
    | init x timeout => exact trivial
    | enroll x id ps =>
      simp only [Broker.enroll]
      split
      · exact trivial
      · generalize (Broker.coordinator _).enroll now x id ps = r
        obtain ⟨c, answer⟩ := r
        cases answer <;> exact trivial
    | append x id p records =>
      rcases Broker.append_spec b x id p records with ⟨t, log, -, -, -, -, -, h, -⟩ | ⟨e, h, -⟩
      · simp only [h, Fits]
      · simp only [h, Fits]
    | finish x id o =>
      simp only [Broker.finish]
      split <;> exact trivial
    | listing topic =>
      simp only [Broker.listing]
      split <;> exact trivial
  · cases q <;> exact trivial

/-- The identity that an operation resumes. -/
def Operation.resumed? : Operation → Option Identity
  | .resume producer epoch => some ⟨producer, epoch⟩
  | .resumeFrom token => some token.identity
  | _ => none

/-- What matters of a session. -/
structure Stance where
  config : SessionConfig
  lifecycle : Lifecycle
  identity : Option Identity
  inherited : Bool
  wait : Wait
  worker : Option Worker
  /-- Whether there was a terminal error. -/
  fatal : Bool
  started : Bool

def Session.stance (s : Session) : Stance :=
  ⟨s.config, s.lifecycle, s.identity, s.inherited, s.wait, s.worker, s.shared.fatal.isSome,
    s.shared.started⟩

/-- The lifecycle while the transaction is being ended. -/
def Outcome.ending : Outcome → Lifecycle
  | .commit => .committing
  | .abort => .aborting

namespace Stance

/-- The plain facts about a session: who has an identity has a worker, a
transaction is being ended only while the broker is asked to end it, and what
waits for room is what follows it. -/
structure Sane (v : Stance) : Prop where
  manned : v.lifecycle.hasIdentity = true → v.worker ≠ none ∧ v.identity ≠ none
  ending : ∀ o, v.lifecycle = Outcome.ending o → ∃ o back, v.wait = .finish o back
  flushing : ∀ o, v.wait = .flush (.finish o) → v.lifecycle = .inTransaction
  room : ∀ m next, v.wait = .room m next → (∃ p, m = .send p ∧ next = .sent) ∨
    (m = .barrier .newTransaction ∧ next = .begun) ∨
    ∃ after, m = .barrier .flush ∧ next = .flush after

/-- The request that the running operation waits for an answer to. -/
def request? (v : Stance) : Option Request :=
  match v.wait with
  | .identity => some (.init v.config.txid v.config.transactionTimeout)
  | .listing topic => some (.listing topic)
  | .routing draft _ _ => some (.listing draft.topic)
  | .finish o _ => v.identity.map fun id => .finish v.config.txid id o
  | _ => none

/-- The running operation may end here: it waits for no flush that the worker
may still reach, and the broker is not asked to end the transaction. -/
def Unblocked (v : Stance) : Prop :=
  (∀ next w, v.wait = .flush next → v.worker = some w → w.flushed = true ∨ w.phase = .stopped) ∧
    ∀ o back, v.wait ≠ .finish o back

/-- The worker with one more message in its queue. -/
def queue (w : Worker) (m : Message) : Worker := { w with queue := w.queue ++ [m] }

/-- The event lets a neutral operation end: none that begins, sends, or ends a
transaction. -/
def Neutral (v : Stance) : Event → Prop
  | .called (.finish _) => v.lifecycle = .ready
  | .called .begin | .called (.send ..) => False
  | .called _ => True
  | _ => v.wait = .flush .report ∨ v.wait = .drain ∨ ∃ topic, v.wait = .listing topic

/-- The event lets a send go on, with this message. -/
def Sends (v : Stance) (e : Event) (p : Pending) : Prop :=
  (∃ draft ticket present, ((v.wait = .nothing ∧ v.lifecycle = .inTransaction ∧
      e = .called (.send draft ticket present)) ∨ v.wait = .routing draft ticket present) ∧
    p.ticket = ticket ∧ p.record = draft.record present ∧
    ∀ target, p.target = .ok target → target.topic = draft.topic) ∨
  v.wait = .room (.send p) .sent

/-- The event lets a beginning go on. -/
def Begins (v : Stance) (e : Event) : Prop :=
  (v.wait = .nothing ∧ v.lifecycle = .ready ∧ e = .called .begin) ∨
    v.wait = .room (.barrier .newTransaction) .begun

/-- The event lets a flush go on; `flushed` is what the worker says afterwards. -/
def Flushes (v : Stance) (e : Event) (w : Worker) (next : AfterFlush) (flushed : Bool) : Prop :=
  (v.wait = .nothing ∧ flushed = false ∧ ((next = .report ∧ e = .called .flush) ∨
    ∃ o, next = .finish o ∧ e = .called (.finish o) ∧ v.lifecycle = .inTransaction)) ∨
  (v.wait = .room (.barrier .flush) (.flush next) ∧ flushed = w.flushed)

/-- The flush before the end of a transaction has been reached. -/
def Reached (v : Stance) (o : Outcome) : Prop :=
  v.wait = .flush (.finish o) ∧ ∃ w, v.worker = some w ∧ w.flushed = true

theorem Reached.unblocked {v : Stance} {o : Outcome} (h : v.Reached o) : v.Unblocked := by
  obtain ⟨hw, w, hwk, hf⟩ := h
  refine ⟨fun _ w' _ hwk' => Or.inl ?_, fun _ _ hw' => ?_⟩
  · rw [hwk] at hwk'
    rw [← Option.some.inj hwk', hf]
  · rw [hw] at hw'
    cases hw'

/-- The turns of a stance. -/
inductive Turn (v : Stance) (e : Event) : Stance → List Effect → Prop
  | stay (h : ∀ q answer, v.request? = some q → e = .answered answer → ¬ Fits q answer) :
      Turn v e v []
  | failed (err : SessionError) (hu : v.Unblocked) :
      Turn v e { v with wait := .nothing } [.returned (.error err)]
  | reported (r : Report) (h : v.Neutral e) (hu : v.Unblocked) :
      Turn v e { v with wait := .nothing } [.returned (.ok r)]
  | identifying (hw : v.wait = .nothing) (hl : v.lifecycle = .uninitialized) (he : e = .called .init) :
      Turn v e { v with wait := .identity }
        [.asked (.init v.config.txid v.config.transactionTimeout)]
  | listing (topic : String) (hw : v.wait = .nothing) (he : e = .called (.listing topic)) :
      Turn v e { v with wait := .listing topic } [.asked (.listing topic)]
  | routing (draft : Draft) (ticket : Ticket) (present : Int) (hw : v.wait = .nothing)
      (hl : v.lifecycle = .inTransaction) (he : e = .called (.send draft ticket present)) :
      Turn v e { v with wait := .routing draft ticket present } [.asked (.listing draft.topic)]
  | acquired (id : Identity) (inherited : Bool) (w : Worker)
      (hw : w = ⟨v.config.txid, id, v.config.maxBatch, [], [], .idle, false⟩)
      (h : (v.wait = .identity ∧ e = .answered (.ok (.identity id)) ∧ inherited = false) ∨
        (v.wait = .nothing ∧ v.lifecycle = .uninitialized ∧ inherited = true ∧
          ∃ op, e = .called op ∧ op.resumed? = some id)) :
      Turn v e
        { v with
          lifecycle := .ready, identity := some id, inherited := inherited, wait := .nothing
          worker := some w }
        [.returned (.ok .done)]
  | sent (p : Pending) (w : Worker) (h : v.Sends e p) (hw : v.worker = some w)
      (hp : w.phase ≠ .stopped) :
      Turn v e { v with wait := .nothing, worker := some (queue w (.send p)) }
        [.returned (.ok .done)]
  | abandoned (p : Pending) (h : v.Sends e p) (hw : ∀ w, v.worker = some w → w.phase = .stopped) :
      Turn v e { v with wait := .nothing }
        [.deed (.completed p.ticket (.error .abandoned)), .returned (.ok .done)]
  | crowded (p : Pending) (h : v.Sends e p) : Turn v e { v with wait := .room (.send p) .sent } []
  | begun (w : Worker) (started : Bool) (h : v.Begins e) (hw : v.worker = some w)
      (hp : w.phase ≠ .stopped) :
      Turn v e
        { v with
          lifecycle := .inTransaction, wait := .nothing, started := started
          worker := some (queue w (.barrier .newTransaction)) }
        [.returned (.ok .done)]
  | beginning (started : Bool) (h : v.Begins e) :
      Turn v e { v with wait := .room (.barrier .newTransaction) .begun, started := started } []
  | unbegun (started : Bool) (err : SessionError) (h : v.Begins e) :
      Turn v e { v with wait := .nothing, started := started } [.returned (.error err)]
  | flushing (w : Worker) (next : AfterFlush) (flushed : Bool) (h : v.Flushes e w next flushed)
      (hw : v.worker = some w) (hp : w.phase ≠ .stopped) :
      Turn v e
        { v with
          wait := .flush next
          worker := some (queue { w with flushed := flushed } (.barrier .flush)) } []
  | awaiting (w : Worker) (next : AfterFlush) (flushed : Bool) (h : v.Flushes e w next flushed)
      (hw : v.worker = some w) (hp : w.phase ≠ .stopped) :
      Turn v e
        { v with
          wait := .room (.barrier .flush) (.flush next)
          worker := some { w with flushed := flushed } } []
  | unflushed (w : Worker) (next : AfterFlush) (flushed : Bool) (err : SessionError)
      (h : v.Flushes e w next flushed) (hw : v.worker = some w) (hp : w.phase = .stopped) :
      Turn v e { v with wait := .nothing, worker := some { w with flushed := flushed } }
        [.returned (.error err)]
  | finishing (o : Outcome) (back : Lifecycle) (id : Identity) (hid : v.identity = some id)
      (h : (v.wait = .nothing ∧ e = .called (.finish o) ∧ v.lifecycle = .ready ∧ back = .ready ∧
          v.inherited = true) ∨
        (v.Reached o ∧ back = .inTransaction ∧ v.fatal = false)) :
      Turn v e { v with lifecycle := o.ending, wait := .finish o back }
        [.asked (.finish v.config.txid id o)]
  | concluded (o : Outcome)
      (h : (∃ back, v.wait = .finish o back ∧ e = .answered (.ok .finished)) ∨
        (v.Reached o ∧ ((v.fatal = true ∧ o = .abort) ∨
          (v.fatal = false ∧ v.inherited = false ∧ v.started = false)))) :
      Turn v e { v with lifecycle := .ready, inherited := false, wait := .nothing, started := false }
        [.returned (.ok .done)]
  | refused (o : Outcome) (back : Lifecycle) (err : BrokerError) (fatal : Bool) (error : SessionError)
      (hw : v.wait = .finish o back) (he : e = .answered (.error err))
      (hf : fatal = true ↔ v.fatal = true ∨ (v.identity ≠ none ∧ ∃ x n k, err = .fenced x n k)) :
      Turn v e { v with lifecycle := back, wait := .nothing, fatal := fatal }
        [.returned (.error error)]
  | closing (hw : v.wait = .nothing) (he : e = .called .close) :
      Turn v e { v with lifecycle := .closed, wait := .drain } []
  | closed (hw : v.wait = .nothing) (he : e = .called .close) (hn : v.worker = none) :
      Turn v e { v with lifecycle := .closed, wait := .nothing }
        [.disconnected, .returned (.ok .done)]
  | drained (hw : v.wait = .drain) :
      Turn v e { v with wait := .nothing } [.disconnected, .returned (.ok .done)]

end Stance

namespace Session

open Stance

variable {s : Session}

/-- The result of a step is a turn of the session's stance. -/
def Turns (s : Session) (e : Event) (r : Session × List Effect) : Prop :=
  s.stance.Turn e r.1.stance r.2

theorem turns_of {e : Event} {v : Stance} {effects : List Effect} (h : s.stance.Turn e v effects)
    {s' : Session} (hv : s'.stance = v) : s.Turns e (s', effects) := by
  unfold Turns
  rw [hv]
  exact h

/-! ### Queueing -/

theorem stance_push {s₁ : Session} (h : s₁.stance = s.stance) {m : Message} {next : AfterPush} :
    (∃ w, s.worker = some w ∧ w.phase ≠ .stopped ∧
      s₁.push m next = pushed { s₁ with worker := some (queue w m) } next) ∨
    (∃ w, s.worker = some w ∧ w.phase ≠ .stopped ∧
      s₁.push m next = ({ s₁ with wait := .room m next }, [])) ∨
    ((∀ w, s.worker = some w → w.phase = .stopped) ∧ s₁.push m next = s₁.unqueued m next) := by
  have hw : s₁.worker = s.worker := congrArg Stance.worker h
  unfold push
  rw [hw]
  cases hs : s.worker with
  | none => exact Or.inr (Or.inr ⟨fun w hw => (nomatch hw), rfl⟩)
  | some w =>
    simp only
    split
    · rename_i hp
      refine Or.inr (Or.inr ⟨fun w' hw' => ?_, rfl⟩)
      rw [← Option.some.inj hw']
      exact hp
    · rename_i hp
      split
      · exact Or.inl ⟨w, rfl, hp, rfl⟩
      · exact Or.inr (Or.inl ⟨w, rfl, hp, rfl⟩)

theorem turns_send {e : Event} {s₁ : Session} (hs : s₁.stance = s.stance) {p : Pending}
    (h : s.stance.Sends e p) : s.Turns e (s₁.push (.send p) .sent) := by
  rcases stance_push hs with ⟨w, hw, hp, he⟩ | ⟨w, -, -, he⟩ | ⟨hgone, he⟩
  · rw [he]
    exact turns_of (.sent p w h hw hp) (by rw [← hs]; rfl)
  · rw [he]
    exact turns_of (.crowded p h) (by rw [← hs]; rfl)
  · rw [he]
    exact turns_of (.abandoned p h hgone) (by rw [← hs]; rfl)

theorem turns_begin {e : Event} (started : Bool) (h : s.stance.Begins e) {s₁ : Session}
    (hs : s₁.stance = { s.stance with started := started }) :
    s.Turns e (s₁.push (.barrier .newTransaction) .begun) := by
  have hw : s₁.worker = s.worker := congrArg Stance.worker hs
  rcases stance_push (rfl : s₁.stance = s₁.stance) with ⟨w, hw', hp, he⟩ | ⟨w, -, -, he⟩ | ⟨-, he⟩
  · rw [he]
    apply turns_of (.begun w started h (hw.symm.trans hw') hp)
    exact congrArg (fun v : Stance => { v with
      lifecycle := .inTransaction, wait := .nothing
      worker := some (queue w (.barrier .newTransaction)) }) hs
  · rw [he]
    exact turns_of (.beginning started h)
      (congrArg (fun v : Stance => { v with wait := .room (.barrier .newTransaction) .begun }) hs)
  · rw [he]
    exact turns_of (.unbegun started _ h)
      (congrArg (fun v : Stance => { v with wait := .nothing }) hs)

theorem turns_flush {e : Event} {w : Worker} {next : AfterFlush} {flushed : Bool}
    (h : s.stance.Flushes e w next flushed) (hw : s.worker = some w) {s₁ : Session}
    (hs : s₁.stance = { s.stance with worker := some { w with flushed := flushed } }) :
    s.Turns e (s₁.push (.barrier .flush) (.flush next)) := by
  have hw₁ : s₁.worker = some { w with flushed := flushed } := congrArg Stance.worker hs
  rcases stance_push (rfl : s₁.stance = s₁.stance) with
    ⟨w', hw', hp, he⟩ | ⟨w', hw', hp, he⟩ | ⟨hp, he⟩
  · rw [hw₁, Option.some.injEq] at hw'
    subst hw'
    rw [he]
    apply turns_of (.flushing w next flushed h hw hp)
    exact congrArg (fun v : Stance => { v with
      wait := .flush next
      worker := some (queue { w with flushed := flushed } (.barrier .flush)) }) hs
  · rw [hw₁, Option.some.injEq] at hw'
    subst hw'
    rw [he]
    exact turns_of (.awaiting w next flushed h hw hp)
      (congrArg (fun v : Stance => { v with wait := .room (.barrier .flush) (.flush next) }) hs)
  · rw [he]
    have hp' : w.phase = .stopped := hp { w with flushed := flushed } hw₁
    exact turns_of (.unflushed w next flushed _ h hw hp')
      (congrArg (fun v : Stance => { v with wait := .nothing }) hs)

/-! ### Routing -/

theorem stance_route (s : Session) (draft : Draft) (count : Nat) :
    (s.route draft count).1.stance = s.stance := by
  unfold route
  split
  · rfl
  · split
    · split <;> rfl
    · rfl
    · rfl

/-- All that routing may do is to forget the topic. -/
theorem shared_route (s : Session) (draft : Draft) (count : Nat) :
    (s.route draft count).1.shared = s.shared ∨
      (s.route draft count).1.shared = s.shared.forget draft.topic := by
  unfold route
  split
  · exact Or.inl rfl
  · split
    · split
      · exact Or.inr rfl
      · exact Or.inl rfl
    · exact Or.inl rfl
    · exact Or.inl rfl

theorem route_topic {draft : Draft} {count : Nat} {target : TopicPartition}
    (h : (s.route draft count).2 = .ok target) : target.topic = draft.topic := by
  unfold route at h
  split at h
  · cases h
  · split at h
    · split at h
      · cases h
      · rw [← Except.ok.inj h]
    · rw [← Except.ok.inj h]
    · rw [← Except.ok.inj h]

/-- A draft that is routed is queued as a message of its own. -/
theorem turns_enqueue {e : Event} {s₁ : Session} (hs : s₁.stance = s.stance) {draft : Draft}
    {ticket : Ticket} {present : Int} {target : Except DeliveryError TopicPartition}
    (h : (s.wait = .nothing ∧ s.lifecycle = .inTransaction ∧
      e = .called (.send draft ticket present)) ∨ s.wait = .routing draft ticket present)
    (ht : ∀ p, target = .ok p → p.topic = draft.topic) :
    s.Turns e (s₁.enqueue draft ticket present target) := by
  unfold enqueue
  exact turns_send (hs ▸ rfl) (Or.inl ⟨draft, ticket, present, h, rfl, rfl, ht⟩)

/-! ### The end of a transaction -/

theorem turns_askFinish {e : Event} {o : Outcome} {back : Lifecycle} (hid : s.identity ≠ none)
    (h : (s.wait = .nothing ∧ e = .called (.finish o) ∧ s.lifecycle = .ready ∧ back = .ready ∧
      s.inherited = true) ∨
      (s.stance.Reached o ∧ back = .inTransaction ∧ s.stance.fatal = false)) :
    s.Turns e (s.askFinish o back) := by
  obtain ⟨id, hid⟩ := Option.ne_none_iff_exists'.mp hid
  unfold askFinish
  rw [hid]
  have ht : s.stance.Turn e _ _ := .finishing o back id hid h
  cases o <;> exact turns_of ht (by simp [stance, hid, Outcome.ending])

theorem turns_conclude {e : Event} {o : Outcome}
    (h : (∃ back, s.wait = .finish o back ∧ e = .answered (.ok .finished)) ∨
      (s.stance.Reached o ∧ ((s.stance.fatal = true ∧ o = .abort) ∨
        (s.stance.fatal = false ∧ s.inherited = false ∧ s.shared.started = false)))) :
    s.Turns e (s.conclude o) :=
  turns_of (.concluded o h) rfl

theorem turns_finishFlushed (hs : s.stance.Sane) {e : Event} {o : Outcome}
    (h : s.stance.Reached o) : s.Turns e (s.finishFlushed o) := by
  have hl : s.lifecycle = .inTransaction := hs.flushing o h.1
  have hid : s.identity ≠ none := (hs.manned (by rw [show s.stance.lifecycle = _ from hl]; rfl)).2
  unfold finishFlushed
  cases hf : s.shared.fatal with
  | some err =>
    have hfatal : s.stance.fatal = true := by simp [stance, hf]
    cases o with
    | commit =>
      apply turns_of (.failed err.forSession h.unblocked)
      simp [stance, hl]
    | abort => exact turns_conclude (Or.inr ⟨h, Or.inl ⟨hfatal, rfl⟩⟩)
  | none =>
    have hfatal : s.stance.fatal = false := by simp [stance, hf]
    simp only
    split
    · exact turns_askFinish hid (Or.inr ⟨h, rfl, hfatal⟩)
    · rename_i hn
      simp only [Bool.or_eq_true, not_or, Bool.not_eq_true] at hn
      exact turns_conclude (Or.inr ⟨h, Or.inr ⟨hfatal, hn.1, hn.2⟩⟩)

/-- To flush, or to end the transaction after a flush. -/
theorem turns_askFlush (hs : s.stance.Sane) {e : Event} {next : AfterFlush}
    (hw : s.wait = .nothing) (h : (next = .report ∧ e = .called .flush) ∨
      ∃ o, next = .finish o ∧ e = .called (.finish o) ∧ s.lifecycle = .inTransaction) :
    s.Turns e (s.askFlush next) := by
  unfold askFlush
  cases hwk : s.worker with
  | none =>
    rcases h with ⟨rfl, rfl⟩ | ⟨o, rfl, rfl, hl⟩
    · have hn : s.stance.Neutral (.called .flush) := trivial
      exact turns_of (.reported .done hn (by simp [Unblocked, stance, hw])) rfl
    · exact absurd hwk (hs.manned (by rw [show s.stance.lifecycle = _ from hl]; rfl)).1
  | some w => exact turns_flush (Or.inl ⟨hw, rfl, h⟩) hwk rfl

/-! ### Events -/

theorem turns_called (hs : s.stance.Sane) (hw : s.wait = .nothing) (op : Operation) :
    s.Turns (.called op) (s.called op) := by
  have hu : s.stance.Unblocked := by simp [Unblocked, stance, hw]
  have illegal : ∀ {op : Operation} (name : String), s.Turns (.called op) (s.illegal name) :=
    fun name => turns_of (.failed _ hu) rfl
  have resume : ∀ {op : Operation} (producer epoch : Int), s.lifecycle = .uninitialized →
      op.resumed? = some ⟨producer, epoch⟩ →
      s.Turns (.called op) (s.resume producer epoch) := by
    intro op producer epoch hl hop
    unfold Session.resume
    split
    · exact turns_of (.failed _ hu) rfl
    · exact turns_of (.acquired ⟨producer, epoch⟩ true _ rfl (Or.inr ⟨hw, hl, rfl, _, rfl, hop⟩)) rfl
  have finish : ∀ (name : String) (o : Outcome), s.Turns (.called (.finish o)) (s.finish name o) := by
    intro name o
    unfold Session.finish
    cases hl : s.lifecycle with
    | uninitialized => exact illegal name
    | closed => exact illegal name
    | ready =>
      simp only
      split
      · rename_i hi
        have hid := (hs.manned (by rw [show s.stance.lifecycle = _ from hl]; rfl)).2
        exact turns_askFinish hid (Or.inl ⟨hw, rfl, hl, rfl, hi⟩)
      · have hn : s.stance.Neutral (.called (.finish o)) := hl
        exact turns_of (.reported .done hn hu) (by simp [stance, hl])
    | inTransaction => exact turns_askFlush hs hw (Or.inr ⟨o, rfl, rfl, hl⟩)
    | committing =>
      obtain ⟨o', back, hw'⟩ := hs.ending .commit hl
      rw [show s.stance.wait = _ from hw] at hw'
      cases hw'
    | aborting =>
      obtain ⟨o', back, hw'⟩ := hs.ending .abort hl
      rw [show s.stance.wait = _ from hw] at hw'
      cases hw'
  cases op with
  | init =>
    simp only [called]
    split
    · rename_i hl
      exact turns_of (.identifying hw hl rfl) rfl
    · exact illegal _
  | resume producer epoch =>
    simp only [called]
    split
    · rename_i hl
      exact resume producer epoch hl rfl
    · exact illegal _
  | resumeFrom token =>
    simp only [called]
    split
    · exact illegal _
    · rename_i hl
      split
      · exact turns_of (.failed _ hu) rfl
      · exact resume token.producer token.epoch (Decidable.not_not.mp hl) rfl
  | begin =>
    simp only [called]
    split
    · rename_i hl
      unfold begin
      split
      · exact turns_of (.failed _ hu) rfl
      · exact turns_begin false (Or.inl ⟨hw, hl, rfl⟩) rfl
    · exact illegal _
  | send draft ticket present =>
    simp only [called]
    split
    · rename_i hl
      unfold send
      split
      · exact turns_enqueue (stance_route s draft _) (Or.inl ⟨hw, hl, rfl⟩) fun p hp => route_topic hp
      · exact turns_of (.routing draft ticket present hw hl rfl) rfl
    · exact illegal _
  | flush =>
    simp only [called]
    split
    · exact illegal _
    · exact turns_askFlush hs hw (Or.inl ⟨rfl, rfl⟩)
  | finish o => cases o <;> exact finish _ _
  | listing topic =>
    simp only [called]
    split
    · exact illegal _
    · exact turns_of (.listing topic hw rfl) rfl
  | close =>
    have hn : s.stance.Neutral (.called .close) := trivial
    simp only [called, close]
    split
    · exact turns_of (.reported .done hn hu) rfl
    · split
      · exact turns_of (.closing hw rfl) rfl
      · rename_i hn
        exact turns_of (.closed hw rfl hn) rfl

/-- Of all refusals to end the transaction only one is kept: that a newer
identity exists. -/
theorem fatal_finishRefused (s : Session) (back : Lifecycle) (e : BrokerError) :
    (s.finishRefused back e).1.shared.fatal ≠ none ↔
      s.shared.fatal ≠ none ∨ (s.identity ≠ none ∧ ∃ x n k, e = .fenced x n k) := by
  unfold finishRefused failed finished
  cases e <;> cases hid : s.identity <;> cases hf : s.shared.fatal <;> simp [Shared.latch, hf]

/-- The broker has refused to end the transaction. -/
theorem turns_refused {o : Outcome} {back : Lifecycle} (hw : s.wait = .finish o back)
    (e : BrokerError) : s.Turns (.answered (.error e)) (s.finishRefused back e) := by
  have hf : (s.finishRefused back e).1.shared.fatal.isSome = true ↔ s.stance.fatal = true ∨
      (s.stance.identity ≠ none ∧ ∃ x n k, e = .fenced x n k) := by
    simpa only [Option.isSome_iff_ne_none, stance] using fatal_finishRefused s back e
  have hst : (s.finishRefused back e).1.shared.started = s.shared.started := by
    unfold finishRefused failed finished
    cases e <;> cases hid : s.identity <;> rfl
  exact turns_of (.refused o back e _ _ hw rfl hf) (congrArg (Stance.mk _ _ _ _ _ _ _) hst)

theorem turns_answered (answer : Answer) : s.Turns (.answered answer) (s.answered answer) := by
  unfold answered
  split
  · rename_i id hw
    exact turns_of (.acquired id false _ rfl (Or.inl ⟨hw, rfl, rfl⟩)) rfl
  · rename_i e hw
    exact turns_of (.failed _ (by simp [Unblocked, stance, hw])) rfl
  · rename_i topic infos hw
    have hn : s.stance.Neutral (.answered (.ok (.partitions infos))) :=
      Or.inr (Or.inr ⟨topic, hw⟩)
    exact turns_of (.reported _ hn (by simp [Unblocked, stance, hw])) rfl
  · rename_i topic e hw
    exact turns_of (.failed _ (by simp [Unblocked, stance, hw])) rfl
  · rename_i draft ticket present infos hw
    have hs := stance_route (s.learn draft.topic infos) draft infos.length
    have ht : ∀ p, ((s.learn draft.topic infos).route draft infos.length).2 = .ok p →
        p.topic = draft.topic := fun p hp => route_topic hp
    exact turns_enqueue (hs.trans rfl) (Or.inr hw) ht
  · rename_i draft ticket present e hw
    refine turns_enqueue rfl (Or.inr hw) fun p hp => ?_
    cases hp
  · rename_i o back hw
    exact turns_conclude (Or.inl ⟨back, hw, rfl⟩)
  · rename_i o back e hw
    exact turns_refused hw e
  · -- no pattern fits, and so the answer is not of the kind that is waited for
    rename_i hn₁ hn₂ hn₃ hn₄ hn₅ hn₆ hn₇ hn₈
    refine turns_of (.stay fun q answer' hq he hfit => ?_) rfl
    obtain rfl := Event.answered.inj he
    unfold request? at hq
    rw [show s.stance.wait = s.wait from rfl] at hq
    split at hq
    · rename_i hw
      rw [← Option.some.inj hq] at hfit
      rcases fits_init hfit with ⟨id, rfl⟩ | ⟨e, rfl⟩
      · exact hn₁ id hw rfl
      · exact hn₂ e hw rfl
    · rename_i topic hw
      rw [← Option.some.inj hq] at hfit
      rcases fits_listing hfit with ⟨infos, rfl⟩ | ⟨e, rfl⟩
      · exact hn₃ topic infos hw rfl
      · exact hn₄ topic e hw rfl
    · rename_i draft ticket present hw
      rw [← Option.some.inj hq] at hfit
      rcases fits_listing hfit with ⟨infos, rfl⟩ | ⟨e, rfl⟩
      · exact hn₅ draft ticket present infos hw rfl
      · exact hn₆ draft ticket present e hw rfl
    · rename_i o back hw
      obtain ⟨id, -, rfl⟩ := Option.map_eq_some_iff.mp hq
      rcases fits_finish hfit with rfl | ⟨e, rfl⟩
      · exact hn₇ o back hw rfl
      · exact hn₈ o back e hw rfl
    · cases hq

theorem turns_woken (hs : s.stance.Sane) : s.Turns .woken s.woken := by
  have stay : s.stance.Turn .woken s.stance [] := .stay fun _ _ _ he => nomatch he
  unfold woken
  split
  · rename_i m next hw
    rcases hs.room m next hw with ⟨p, rfl, rfl⟩ | ⟨rfl, rfl⟩ | ⟨next, rfl, rfl⟩
    · exact turns_send rfl (Or.inr hw)
    · exact turns_begin s.shared.started (Or.inr hw) rfl
    · cases hwk : s.worker with
      | none =>
        unfold push
        rw [hwk]
        exact turns_of (.failed _ (by simp [Unblocked, stance, hw])) (by simp [stance, hwk])
      | some w =>
        refine turns_flush (Or.inr ⟨hw, rfl⟩) hwk ?_
        simp [stance, hwk]
  · rename_i next hw
    split
    · rename_i w hwk
      split
      · rename_i hf
        cases next with
        | report =>
          have hn : s.stance.Neutral .woken := Or.inl hw
          refine turns_of (.reported .done hn ⟨fun _ w' _ hwk' => Or.inl ?_, ?_⟩) rfl
          · rw [show s.stance.worker = _ from hwk] at hwk'
            rw [← Option.some.inj hwk', hf]
          · simp [stance, hw]
        | finish o => exact turns_finishFlushed hs ⟨hw, w, hwk, hf⟩
      · split
        · rename_i hgone
          refine turns_of (.failed _ ⟨fun _ w' _ hwk' => Or.inr ?_, ?_⟩) rfl
          · rw [show s.stance.worker = _ from hwk] at hwk'
            rw [← Option.some.inj hwk']
            simp only [isWorkerGone, hwk, Delivery.isStopped] at hgone
            split at hgone
            · assumption
            · cases hgone
          · simp [stance, hw]
        · exact turns_of stay rfl
    · rename_i hwk
      exact turns_of (.failed _ (by simp [Unblocked, stance, hw, hwk])) rfl
  · rename_i hw
    split
    · exact turns_of (.drained hw) rfl
    · exact turns_of stay rfl
  · exact turns_of stay rfl

end Session
end FencedLog
