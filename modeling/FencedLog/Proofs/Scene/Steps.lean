/-
# What one act does to a scene

A coupled scene stays coupled, and each act comes down to one of a few steps
(`Coupled.act`): somebody else does something, a request reaches the broker or
is refused, the session takes a stride, or the worker moves on from its queue
or from an answer (`Source`), or stops. What holds of scenes is proved step by
step from here.

Key definitions: `Source`, `Scene.Step`.
Key theorems: `Scene.foldl_deeds`, `Scene.Coupled.act`, `Scene.coupled_start`.
-/
import FencedLog.Proofs.Scene.Strides

namespace FencedLog

open Stance

/-! ### Moves of the worker -/

/-- What a worker goes on from: the worker, the barrier and the loads that it
goes on with, what has been acknowledged and which refusal it has heard. -/
inductive Source (w : Worker) (work : Line) :
    Worker → Option Barrier → List Freight → List (Ticket × Placement) → Option BrokerError → Prop
  | round (pending : List Pending) (barrier : Option Barrier) (rest : List Message)
      (hp : w.phase = .idle)
      (hq : w.queue = pending.map .send ++ (barrier.map .barrier).toList ++ rest) :
      Source w work { w with queue := rest } barrier (routed pending) [] none
  | enrolled (fresh : List TopicPartition) (batches : List (Batch Load)) (barrier : Option Barrier)
      (hp : w.phase = .enrolling fresh batches barrier) (hl : work = .replied (.ok .enrolled)) :
      Source w work { w with enrolled := w.enrolled ++ fresh } barrier (loadsOf batches) [] none
  | appended (batch : Batch Load) (rest : List (Batch Load)) (barrier : Option Barrier)
      (base : Nat) (hp : w.phase = .appending batch rest barrier)
      (hl : work = .replied (.ok (.appended base))) :
      Source w work w barrier (loadsOf rest) (placements batch.partition base batch.items) none
  | refused (loads : List Freight) (e : BrokerError) (hi : w.phase ≠ .idle)
      (hs : w.phase ≠ .stopped) (hl : work = .replied (.error e))
      (hloads : loads.Subperm w.phase.loads) :
      Source w work w w.phase.barrier loads [] (some e)

theorem Source.keeps {w w₀ : Worker} {work : Line} {barrier : Option Barrier}
    {loads : List Freight} {acked : List (Ticket × Placement)} {err : Option BrokerError}
    (h : Source w work w₀ barrier loads acked err) :
    w₀.txid = w.txid ∧ w₀.identity = w.identity ∧ w.phase ≠ .stopped := by
  cases h with
  | round _ _ _ hp => exact ⟨rfl, rfl, by simp [hp]⟩
  | enrolled _ _ _ hp => exact ⟨rfl, rfl, by simp [hp]⟩
  | appended _ _ _ _ hp => exact ⟨rfl, rfl, by simp [hp]⟩
  | refused _ _ _ hs => exact ⟨rfl, rfl, hs⟩

theorem Worker.Next.keeps {w w' : Worker} {barrier : Option Barrier} {loads : List Freight}
    {q : Option Request} (h : w.Next barrier loads w' q) :
    w'.txid = w.txid ∧ w'.identity = w.identity ∧ w'.request? = q := by
  cases h with
  | reach =>
    cases barrier with
    | none => exact ⟨rfl, rfl, rfl⟩
    | some b => cases b <;> exact ⟨rfl, rfl, rfl⟩
  | enroll => exact ⟨rfl, rfl, rfl⟩
  | append => exact ⟨rfl, rfl, rfl⟩

/-- The line of a worker that has gone on. -/
def asking (q : Option Request) : Line := q.elim .idle .sent

theorem asking_serves (q : Option Request) : (asking q).Serves q := by
  cases q with
  | none => trivial
  | some q => rfl

namespace Scene

/-- The deeds of a worker leave its request on the line, and its
acknowledgments in the chapter. -/
theorem foldl_deeds : ∀ (deeds : List Deed) (σ : Scene),
    (deeds.map Effect.deed).foldl feel σ = { σ with
      work := (requests deeds).foldl (fun _ q => .sent q) σ.work
      chapter := { σ.chapter with acks := σ.chapter.acks ++ acks deeds } }
  | [], σ => by simp [requests, acks]
  | d :: deeds, σ => by
    rw [List.map_cons, List.foldl_cons, foldl_deeds deeds]
    cases d with
    | request q => rfl
    | dropped t => rfl
    | completed t c =>
      cases c with
      | error e => rfl
      | ok placement => simp [feel, acks, requests]

/-- An event of the worker. -/
theorem perform_deliver {σ : Scene} {w : Worker} (hw : σ.session.worker = some w) {e : Event}
    {f : Delivery → Delivery × List Deed} (he : σ.session.step e = σ.session.deliver f)
    {q : Option Request} (hq : requests (f ⟨w, σ.session.shared⟩).2 = q.toList) :
    σ.perform e = { σ with
      session := { σ.session with
        worker := some (f ⟨w, σ.session.shared⟩).1.worker
        shared := (f ⟨w, σ.session.shared⟩).1.shared }
      work := q.elim σ.work .sent
      chapter := { σ.chapter with
        acks := σ.chapter.acks ++ acks (f ⟨w, σ.session.shared⟩).2 } } := by
  unfold perform
  rw [he]
  simp only [Session.deliver, hw]
  rw [foldl_deeds, hq]
  cases q <;> rfl

theorem perform_deliver_none {σ : Scene} (hw : σ.session.worker = none) {e : Event}
    {f : Delivery → Delivery × List Deed} (he : σ.session.step e = σ.session.deliver f) :
    σ.perform e = σ := by
  unfold perform
  rw [he]
  simp [Session.deliver, hw]

/-! ### Steps -/

/-- What an act may do to a coupled scene. -/
inductive Step (σ : Scene) : Act → Scene → Prop
  | same (a : Act) : Step σ a σ
  | others (op : Broker.Op) : Step σ (.others op) { σ with chronicle := σ.chronicle.act op }
  | reachOwn (now : Span) (lost : Option BrokerError) (q : Request) (h : σ.own = .sent q) :
      Step σ (.reach .own now lost) (σ.reachOwn now lost q)
  | reachWork (now : Span) (lost : Option BrokerError) (q : Request) (h : σ.work = .sent q) :
      Step σ (.reach .work now lost) (σ.reachWork now lost q)
  | refuseOwn (e : BrokerError) (q : Request) (h : σ.own = .sent q) :
      Step σ (.refuse .own e) { σ with own := .replied (.error e) }
  | refuseWork (e : BrokerError) (q : Request) (h : σ.work = .sent q) :
      Step σ (.refuse .work e) { σ with work := .replied (.error e) }
  | turn (a : Act) (e : Event) (τ : Scene)
      (hcall : ∀ op, e = .called op → a = .call op)
      (hanswer : ∀ answer, e = .answered answer → σ.own = .replied answer)
      (h : σ.Turned e τ.session τ) : Step σ a τ
  | moved (a : Act) (w w₀ w' : Worker) (barrier : Option Barrier) (loads : List Freight)
      (acked : List (Ticket × Placement)) (err : Option BrokerError) (q : Option Request)
      (fatal started : Bool) (s' : Session)
      (hw : σ.session.stance.worker = some w) (hs : Source w σ.work w₀ barrier loads acked err)
      (hn : w₀.Next barrier loads w' q)
      (hf : fatal = true ↔ σ.session.stance.fatal = true ∨ ∃ e, err = some e ∧ e.isFencing = true)
      (hst : σ.session.stance.started = true → started = true)
      (he : ∀ x id ps, q = some (.enroll x id ps) → started = true)
      (hv : s'.stance = { σ.session.stance with
        worker := some w', fatal := fatal, started := started })
      (hq : fatal = true → q = none) :
      Step σ a { σ with
        session := s', work := asking q
        chapter := { σ.chapter with acks := σ.chapter.acks ++ acked } }
  | stopped (a : Act) (w : Worker) (s' : Session) (wait : Wait) (call' : Option Call)
      (hw : σ.session.stance.worker = some w)
      (hwait : wait = σ.session.stance.wait ∨ wait = .nothing)
      (hcall : ∀ o, Ended call' o → Ended σ.call o)
      (hv : s'.stance = { σ.session.stance with
        wait := wait, worker := some { w with queue := [], phase := .stopped } }) :
      Step σ a { σ with session := s', work := .idle, call := call' }

/-! ### Coupled scenes stay coupled -/

section Coupled

variable {v : Stance} {own work : Line} {call : Option Call} {w : Worker}

/-- The worker goes on. -/
theorem coupled_moved (h : FencedLog.Coupled v own work call) (hw : v.worker = some w)
    {w₀ w' : Worker} (ht : w₀.txid = w.txid) (hid : w₀.identity = w.identity)
    {barrier : Option Barrier} {loads : List Freight} {q : Option Request}
    (hn : w₀.Next barrier loads w' q) (hsh : Shape v.wait v.lifecycle w') (fatal started : Bool) :
    FencedLog.Coupled { v with worker := some w', fatal := fatal, started := started } own
      (asking q) call where
  sane := ⟨fun hl => ⟨by simp, (h.sane.manned hl).2⟩, h.sane.ending, h.sane.flushing, h.sane.room⟩
  running := h.running
  own := h.own
  fresh := fun hl => by
    rw [h.fresh hl] at hw
    cases hw
  unmanned := fun hn => nomatch hn
  manned := fun w'' hw'' => by
    obtain rfl := Option.some.inj hw''
    have hm := h.manned w hw
    obtain ⟨ht', hid', hreq⟩ := hn.keeps
    refine ⟨?_, ?_, Worker.Sound.next hn, hsh, ?_⟩
    · rw [hid', hid]
      exact hm.identity
    · rw [ht', ht]
      exact hm.txid
    · rw [hreq]
      exact asking_serves q

/-- The worker stops. -/
theorem coupled_stopped (h : FencedLog.Coupled v own work call) (hw : v.worker = some w) :
    FencedLog.Coupled { v with worker := some { w with queue := [], phase := .stopped } } own .idle
      call where
  sane := ⟨fun hl => ⟨by simp, (h.sane.manned hl).2⟩, h.sane.ending, h.sane.flushing, h.sane.room⟩
  running := h.running
  own := h.own
  fresh := fun hl => by
    rw [h.fresh hl] at hw
    cases hw
  unmanned := fun hn => nomatch hn
  manned := fun w' hw' => by
    obtain rfl := Option.some.inj hw'
    have hm := h.manned w hw
    refine ⟨hm.identity, hm.txid, ⟨fun _ => rfl, fun _ _ _ h => (nomatch h), fun _ _ _ h => nomatch h⟩,
      ⟨fun hp => absurd rfl hp, fun _ _ _ => ⟨rfl, Or.inr rfl⟩, hm.shape.armed⟩, trivial⟩

variable {σ : Scene}

theorem Coupled.grounded (h : σ.Coupled) : Grounded σ.session.stance σ.work :=
  ⟨h.sane, h.fresh, h.unmanned, h.manned⟩

/-- The step that an act comes down to, and that the scene stays coupled. -/
abbrev Goes (σ : Scene) (a : Act) : Prop := σ.Step a (σ.act a) ∧ (σ.act a).Coupled

theorem goes_turn {a : Act} {τ : Scene} {e : Event} {s' : Session}
    (hcall : ∀ op, e = .called op → a = .call op)
    (hanswer : ∀ answer, e = .answered answer → σ.own = .replied answer)
    (h : σ.Turned e s' τ) : σ.Step a τ ∧ τ.Coupled := by
  obtain rfl := h.session
  exact ⟨.turn a e τ hcall hanswer h, h.coupled⟩

theorem goes_call (h : σ.Coupled) (op : Operation) : σ.Goes (.call op) := by
  unfold Goes act
  simp only
  split
  · rename_i hw
    have hstep : σ.session.step (.called op) = σ.session.called op := by
      rw [Session.step, hw]
    let σ' : Scene := { σ with call := some ⟨op, σ.session.lifecycle, none⟩ }
    have hidle : σ.own = .idle := by
      have hown := h.own
      rwa [show σ.session.stance.request? = none by simp [Stance.request?, Session.stance, hw],
        Line.serves_none] at hown
    have hp : Primed σ'.session.stance σ'.own σ'.call (.called op) op σ.session.lifecycle :=
      ⟨hidle, rfl, Or.inl ⟨hw, rfl, rfl⟩⟩
    have ht : σ'.Turned (.called op) _ _ :=
      turned h.grounded hp (Session.turns_called h.sane hw op)
    have hperform : σ'.perform (.called op) = (σ.session.called op).2.foldl feel
        { σ' with session := (σ.session.called op).1 } := by
      rw [perform, show σ'.session = σ.session from rfl, hstep]
    rw [show ({ σ with call := some ⟨op, σ.session.lifecycle, none⟩ } : Scene) = σ' from rfl, hperform]
    refine goes_turn (e := .called op) (fun op' he => ?_) (by simp)
      ⟨ht.session, ht.chronicle, ht.work, ht.own, ht.coupled, ht.stride⟩
    rw [Event.called.inj he]
  · exact ⟨.same _, h⟩

theorem goes_hear_own (h : σ.Coupled) : σ.Goes (.hear .own) := by
  unfold Goes act
  simp only
  split
  · rename_i answer hown
    have hs := h.own
    rw [hown] at hs
    cases hq : σ.session.stance.request? with
    | none =>
      rw [hq] at hs
      exact hs.elim
    | some q =>
      rw [hq] at hs
      have hw : σ.session.stance.wait ≠ .nothing := fun hw => by
        simp [Stance.request?, hw] at hq
      obtain ⟨op, lc, hcall, hrun⟩ := h.running hw
      let σ' : Scene := { σ with own := .idle }
      have hp : Primed σ'.session.stance σ'.own σ'.call (.answered answer) op lc :=
        ⟨rfl, hcall, Or.inr ⟨hw, hrun, by simp, Or.inr ⟨q, answer, hq, rfl, hs⟩⟩⟩
      have ht : σ'.Turned (.answered answer) _ _ :=
        turned h.grounded hp (Session.turns_answered answer)
      refine goes_turn (e := .answered answer) (by simp) (fun answer' he => ?_)
        ⟨ht.session, ht.chronicle, ht.work, ht.own, ht.coupled, ht.stride⟩
      rw [← Event.answered.inj he, hown]
  · exact ⟨.same _, h⟩

theorem goes_wake (h : σ.Coupled) : σ.Goes .wake := by
  show σ.Step .wake (σ.perform .woken) ∧ (σ.perform .woken).Coupled
  by_cases hw : σ.session.stance.wait ≠ .nothing ∧ σ.session.stance.request? = none
  · obtain ⟨op, lc, hcall, hrun⟩ := h.running hw.1
    have hidle : σ.own = .idle := by
      have hown := h.own
      rwa [hw.2, Line.serves_none] at hown
    have hp : Primed σ.session.stance σ.own σ.call .woken op lc :=
      ⟨hidle, hcall, Or.inr ⟨hw.1, hrun, by simp, Or.inl hw.2⟩⟩
    exact goes_turn (e := .woken) (by simp) (by simp)
      (turned h.grounded hp (Session.turns_woken h.sane))
  · -- who waits for an answer does not look up
    have hstay : σ.session.woken = (σ.session, []) := by
      unfold Session.woken
      split
      · rename_i m next hwait
        exact absurd ⟨by simp [Session.stance, hwait], by simp [Stance.request?, Session.stance, hwait]⟩ hw
      · rename_i next hwait
        exact absurd ⟨by simp [Session.stance, hwait], by simp [Stance.request?, Session.stance, hwait]⟩ hw
      · rename_i hwait
        exact absurd ⟨by simp [Session.stance, hwait], by simp [Stance.request?, Session.stance, hwait]⟩ hw
      · rfl
    have hsame : σ.perform .woken = σ := by
      unfold perform
      rw [show σ.session.step .woken = σ.session.woken from rfl, hstay]
      rfl
    rw [hsame]
    exact ⟨.same _, h⟩

/-! ### The worker's events -/

theorem coupled_worker (h : σ.Coupled) (hw : σ.session.worker = some w) :
    Mans σ.session.stance w σ.work := h.manned w hw

/-- An event that the worker goes on from. -/
theorem goes_moved (h : σ.Coupled) (a : Act) (hw : σ.session.worker = some w) {e : Event}
    {f : Delivery → Delivery × List Deed} (he : ∀ s : Session, s.step e = s.deliver f)
    {w₀ : Worker} {barrier : Option Barrier} {loads : List Freight}
    {acked : List (Ticket × Placement)} {err : Option BrokerError} {q : Option Request}
    (hs : Source w σ.work w₀ barrier loads acked err)
    (hn : w₀.Next barrier loads (f ⟨w, σ.session.shared⟩).1.worker q)
    (hreq : requests (f ⟨w, σ.session.shared⟩).2 = q.toList)
    (hacks : acks (f ⟨w, σ.session.shared⟩).2 = acked)
    (hf : (f ⟨w, σ.session.shared⟩).1.shared.fatal ≠ none ↔
      σ.session.shared.fatal ≠ none ∨ ∃ e, err = some e ∧ e.isFencing = true)
    (hst : σ.session.shared.started = true → (f ⟨w, σ.session.shared⟩).1.shared.started = true)
    (hen : ∀ x id ps, q = some (.enroll x id ps) →
      (f ⟨w, σ.session.shared⟩).1.shared.started = true)
    (hsilent : (f ⟨w, σ.session.shared⟩).1.shared.fatal ≠ none → q = none)
    (hsh : Shape σ.session.stance.wait σ.session.stance.lifecycle
      (f ⟨w, σ.session.shared⟩).1.worker) :
    σ.Step a ({ σ with work := .idle }.perform e) ∧ ({ σ with work := .idle }.perform e).Coupled := by
  let σ' : Scene := { σ with work := .idle }
  have hperform := perform_deliver (σ := σ') hw (he _) hreq
  rw [hperform, hacks]
  have hfatal : (f ⟨w, σ.session.shared⟩).1.shared.fatal.isSome = true ↔
      σ.session.stance.fatal = true ∨ ∃ e, err = some e ∧ e.isFencing = true := by
    simp only [Option.isSome_iff_ne_none, hf, Session.stance]
  have hq : (f ⟨w, σ.session.shared⟩).1.shared.fatal.isSome = true → q = none :=
    fun h => hsilent (Option.isSome_iff_ne_none.mp h)
  refine ⟨.moved a w w₀ _ barrier loads acked err q _ _ _ hw hs hn hfatal hst hen rfl hq, ?_⟩
  exact coupled_moved h hw hs.keeps.1 hs.keeps.2.1 hn hsh _ _

theorem work_idle (h : σ.Coupled) (hw : σ.session.worker = some w) (hr : w.request? = none) :
    σ.work = .idle := by
  have hs := (coupled_worker h hw).serves
  rwa [hr, Line.serves_none] at hs

theorem goes_round (h : σ.Coupled) (visible : Nat) : σ.Goes (.round visible) := by
  show σ.Step _ (σ.perform (.round visible)) ∧ (σ.perform (.round visible)).Coupled
  have he : ∀ s : Session, s.step (.round visible) = s.deliver (·.round visible) := fun _ => rfl
  cases hw : σ.session.worker with
  | none =>
    rw [perform_deliver_none hw (he _)]
    exact ⟨.same _, h⟩
  | some w =>
    rcases Delivery.goes_round ⟨w, σ.session.shared⟩ visible with
      ⟨-, hr⟩ | ⟨hp, pending, barrier, rest, q, hq, hgoes, hnil, hacks⟩
    · have hsame : σ.perform (.round visible) = σ := by
        unfold perform
        rw [he]
        simp only [Session.deliver, hw, hr]
        rw [← hw]
        rfl
      rw [hsame]
      exact ⟨.same _, h⟩
    · have hidle := work_idle h hw (by
        unfold Worker.request?
        rw [show w.phase = _ from hp])
      have hσ : ({ σ with work := .idle } : Scene) = σ := by rw [← hidle]
      have hmoved := goes_moved h (.round visible) hw he (.round pending barrier rest hp hq) hgoes.next
        hgoes.asks hacks (by simp [hgoes.fatal]) hgoes.started hgoes.enrolls hgoes.silent
        ((coupled_worker h hw).shape.round hp hq hgoes.next hnil)
      rwa [hσ] at hmoved

theorem goes_hear_work (h : σ.Coupled) : σ.Goes (.hear .work) := by
  unfold Goes act
  simp only
  split
  · rename_i answer hl
    have he : ∀ s : Session, s.step (.delivered answer) = s.deliver (·.answered answer) :=
      fun _ => rfl
    cases hw : σ.session.worker with
    | none =>
      have := (h.unmanned hw).2
      rw [hl] at this
      cases this
    | some w =>
      have hm := coupled_worker h hw
      have hs := hm.serves
      rw [hl] at hs
      cases hp : w.phase with
      | idle =>
        simp only [Worker.request?, hp] at hs
        exact hs.elim
      | stopped =>
        simp only [Worker.request?, hp] at hs
        exact hs.elim
      | enrolling fresh batches barrier =>
        simp only [Worker.request?, hp] at hs
        have hbar : w.phase.barrier = barrier := by rw [hp]; rfl
        have hi : w.phase ≠ .idle ∧ w.phase ≠ .stopped := by simp [hp]
        rcases fits_enroll hs with rfl | ⟨e, rfl⟩
        · obtain ⟨⟨q, hgoes⟩, hacks⟩ := Delivery.goes_enrolled (d := ⟨w, σ.session.shared⟩) hp
            (hm.sound.fresh _ _ _ hp).2
          exact goes_moved h _ hw he (.enrolled fresh batches barrier hp hl) hgoes.next hgoes.asks hacks
            (by simp [hgoes.fatal]) hgoes.started hgoes.enrolls hgoes.silent
            (hm.shape.answered hi.1 hi.2 (hbar ▸ hgoes.next))
        · obtain ⟨hwk, hst, hf, hreq, hacks⟩ :=
            Delivery.enroll_refused (d := ⟨w, σ.session.shared⟩) hp e
          have hn : w.Next w.phase.barrier []
              (Delivery.answered ⟨w, σ.session.shared⟩ (.error e)).1.worker none := by
            rw [hwk, hbar]
            exact .reach
          exact goes_moved h _ hw he (.refused [] e hi.1 hi.2 hl List.nil_subperm) hn hreq hacks
            (by simpa using hf) (fun hs => hst.trans hs) (by simp) (fun _ => rfl)
            (hm.shape.answered hi.1 hi.2 hn)
      | appending batch rest barrier =>
        simp only [Worker.request?, hp] at hs
        have hbar : w.phase.barrier = barrier := by rw [hp]; rfl
        have hi : w.phase ≠ .idle ∧ w.phase ≠ .stopped := by simp [hp]
        have hknown : ∀ b ∈ rest, b.partition ∈ w.enrolled := fun b hb =>
          hm.sound.known _ _ _ hp b (List.mem_cons_of_mem _ hb)
        rcases fits_append hs with ⟨base, rfl⟩ | ⟨e, rfl⟩
        · obtain ⟨⟨q, hgoes⟩, hacks⟩ :=
            Delivery.goes_appended (d := ⟨w, σ.session.shared⟩) hp hknown base
          exact goes_moved h _ hw he (.appended batch rest barrier base hp hl) hgoes.next hgoes.asks
            hacks (by simp [hgoes.fatal]) hgoes.started hgoes.enrolls hgoes.silent
            (hm.shape.answered hi.1 hi.2 (hbar ▸ hgoes.next))
        · obtain ⟨⟨q, hnext, hreq, hen, hsilent⟩, hst, hf, hacks⟩ :=
            Delivery.append_refused (d := ⟨w, σ.session.shared⟩) hp hknown e
          have hsub : (loadsOf rest).Subperm w.phase.loads := by
            rw [hp]
            exact (List.sublist_append_right _ _).subperm
          have hn := hnext
          rw [← hbar] at hn
          exact goes_moved h _ hw he (.refused _ e hi.1 hi.2 hl hsub) hn hreq hacks
            (by simpa using hf) hst hen hsilent (hm.shape.answered hi.1 hi.2 hn)
  · exact ⟨.same _, h⟩

/-! ### The worker's end -/

/-- Only the line of a worker that is gone is hung up, and nothing is on it. -/
theorem hangUp_eq (h : σ.Coupled) : σ.hangUp = σ := by
  have hidle : σ.session.isWorkerGone = true → σ.work = .idle := by
    intro hg
    unfold Session.isWorkerGone at hg
    cases hw : σ.session.worker with
    | none => exact (h.unmanned hw).2
    | some w =>
      apply work_idle h hw
      simp only [hw, Delivery.isStopped] at hg
      split at hg
      · rename_i hp
        simp [Worker.request?, hp]
      · cases hg
  unfold hangUp
  split
  · rename_i hg
    rw [← hidle hg]
  · rfl

theorem requests_dropped : ∀ ts : List Ticket, requests (ts.map .dropped) = []
  | [] => rfl
  | _ :: ts => requests_dropped ts

theorem acks_dropped : ∀ ts : List Ticket, acks (ts.map .dropped) = []
  | [] => rfl
  | _ :: ts => acks_dropped ts

/-- The session once its worker has been killed. -/
def killed (s : Session) (w : Worker) : Session :=
  { s with worker := some { w with queue := [], phase := .stopped } }

theorem deliver_kill {s : Session} (hw : s.worker = some w) : s.deliver Delivery.kill =
    (killed s w, ((Delivery.held w.phase ++ Delivery.queued w.queue).map .dropped).map .deed) := by
  simp only [Session.deliver, hw, Delivery.kill, killed]

theorem goes_die (h : σ.Coupled) : σ.Goes .die := by
  show σ.Step _ (σ.perform .died).hangUp ∧ (σ.perform .died).hangUp.Coupled
  cases hw : σ.session.worker with
  | none =>
    rw [perform_deliver_none (f := Delivery.kill) hw rfl, hangUp_eq h]
    exact ⟨.same _, h⟩
  | some w =>
    have hperform : (σ.perform .died).hangUp = { σ with session := killed σ.session w, work := .idle } := by
      unfold perform
      rw [show σ.session.step .died = σ.session.deliver Delivery.kill from rfl, deliver_kill hw]
      simp only
      rw [foldl_deeds, requests_dropped, acks_dropped, hangUp]
      simp [killed, Session.isWorkerGone, Delivery.isStopped]
    rw [hperform]
    exact ⟨.stopped _ w _ _ _ hw (Or.inl rfl) (fun _ ho => ho) rfl, coupled_stopped h hw⟩

theorem goes_outwait (h : σ.Coupled) : σ.Goes .outwait := by
  show σ.Step _ (σ.perform .outwaited).hangUp ∧ (σ.perform .outwaited).hangUp.Coupled
  by_cases hwait : σ.session.wait = .drain
  · obtain ⟨op, lc, hcall, hrun⟩ := h.running (by simp [Session.stance, hwait])
    rw [show σ.session.stance.wait = _ from hwait] at hrun
    cases hrun with
    | draining hn =>
      cases hw : σ.session.worker with
      | none =>
        have hstep : σ.session.step .outwaited =
            ({ σ.session with wait := .nothing }, [.disconnected, .returned (.ok .done)]) := by
          simp [Session.step, Session.outwaited, hwait, Session.deliver, hw, Session.finished]
        have hidle : σ.own = .idle := by
          have hown := h.own
          rwa [show σ.session.stance.request? = none by
            simp [Stance.request?, Session.stance, hwait], Line.serves_none] at hown
        have hp : Primed σ.session.stance σ.own σ.call .outwaited .close lc :=
          ⟨hidle, hcall, Or.inr ⟨by simp [Session.stance, hwait],
            by rw [show σ.session.stance.wait = _ from hwait]; exact .draining hn, by simp,
            Or.inl (by simp [Stance.request?, Session.stance, hwait])⟩⟩
        have ht := turned h.grounded hp (Session.turns_of (e := .outwaited) (.drained hwait)
          (show ({ σ.session with wait := .nothing } : Session).stance = _ from rfl))
        unfold perform
        rw [hstep, hangUp_eq ht.coupled]
        exact goes_turn (e := .outwaited) (by simp) (by simp) ht
      | some w =>
        have hperform : (σ.perform .outwaited).hangUp = { σ with
            session := { killed σ.session w with wait := .nothing }
            work := .idle, call := some ⟨.close, lc, some (.ok .done)⟩ } := by
          unfold perform
          rw [show σ.session.step .outwaited = σ.session.outwaited from rfl, Session.outwaited, hwait]
          simp only [deliver_kill hw, Session.finished]
          rw [List.foldl_append, foldl_deeds, requests_dropped, acks_dropped]
          simp only [List.foldl, feel]
          have hret : ∀ τ : Scene, τ.call = σ.call → τ.returned (.ok .done) =
              { τ with call := some ⟨.close, lc, some (.ok .done)⟩ } :=
            fun τ hτ => returned_ok (hτ.trans hcall) (by simp) (by simp) _
          rw [hret, hangUp]
          · simp [killed, Session.isWorkerGone, Delivery.isStopped]
          · rfl
        rw [hperform]
        have hcall' : ∀ o, Ended (some ⟨.close, lc, some (.ok .done)⟩) o → Ended σ.call o := by
          rintro o ⟨r, ho⟩
          simp at ho
        refine ⟨.stopped _ w _ .nothing _ hw (Or.inr rfl) hcall' rfl, ?_⟩
        have hc := coupled_stopped h hw
        have hs := Grounded.settled ⟨hc.sane, hc.fresh, hc.unmanned, hc.manned⟩
          ⟨by simp [Session.stance, hwait], by simp [Session.stance, hwait]⟩
          (some ⟨.close, lc, some (.ok .done)⟩)
        have hidle : σ.own = .idle := by
          have hown := h.own
          rwa [show σ.session.stance.request? = none by
            simp [Stance.request?, Session.stance, hwait], Line.serves_none] at hown
        show FencedLog.Coupled _ σ.own _ _
        rw [hidle]
        exact hs
  · have hsame : σ.perform .outwaited = σ := by
      unfold perform
      rw [show σ.session.step .outwaited = σ.session.outwaited from rfl, Session.outwaited]
      split
      · rename_i hd
        exact absurd hd hwait
      · rfl
    rw [hsame, hangUp_eq h]
    exact ⟨.same _, h⟩

theorem goes_drain (h : σ.Coupled) : σ.Goes .drain := by
  show σ.Step _ (σ.perform .drained) ∧ (σ.perform .drained).Coupled
  have same : σ.session.step .drained = (σ.session, []) →
      σ.Step .drain (σ.perform .drained) ∧ (σ.perform .drained).Coupled := by
    intro hstep
    have hsame : σ.perform .drained = σ := by
      unfold perform
      rw [hstep]
      rfl
    rw [hsame]
    exact ⟨.same _, h⟩
  by_cases hat : σ.session.attached = true
  · exact same (by simp [Session.step, hat])
  have hstep : σ.session.step .drained = σ.session.deliver fun d => (d.drained, []) := by
    simp [Session.step, hat]
  cases hw : σ.session.worker with
  | none => exact same (by rw [hstep]; simp [Session.deliver, hw])
  | some w =>
    by_cases hd : w.phase = .idle ∧ w.queue = []
    · have hdr : (Delivery.mk w σ.session.shared).drained =
          ⟨{ w with queue := [], phase := .stopped }, σ.session.shared⟩ := by
        unfold Delivery.drained
        simp only [hd.1, hd.2]
        rw [Delivery.setPhase]
        simp [hd.2]
      have hidle := work_idle h hw (by simp [Worker.request?, hd.1])
      have hperform : σ.perform .drained = { σ with session := killed σ.session w, work := .idle } := by
        unfold perform
        rw [hstep]
        simp [Session.deliver, hw, hdr, killed, ← hidle]
      rw [hperform]
      exact ⟨.stopped _ w _ _ _ hw (Or.inl rfl) (fun _ ho => ho) rfl, coupled_stopped h hw⟩
    · have hdr : (Delivery.mk w σ.session.shared).drained = ⟨w, σ.session.shared⟩ := by
        unfold Delivery.drained
        split
        · rename_i hp hq
          exact absurd ⟨hp, hq⟩ hd
        · rfl
      apply same
      rw [hstep]
      simp only [Session.deliver, hw, hdr]
      rw [← hw]
      rfl

/-! ### The lines -/

theorem fits_error (q : Request) (e : BrokerError) : Fits q (.error e) := by cases q <;> trivial

/-- What was sent is answered in kind, or refused. -/
theorem serves_reply {line : Line} {q : Request} {q? : Option Request} (hl : line = .sent q)
    (h : line.Serves q?) (b : Broker) (now : Span) (lost : Option BrokerError) :
    (reply (b.handle now q).2 lost).Serves q? := by
  subst hl
  cases q? with
  | none => exact h.elim
  | some q' =>
    obtain rfl : q = q' := h
    cases lost with
    | none => exact fits_handle b now q
    | some e => exact fits_error q e

theorem serves_refusal {line : Line} {q : Request} {q? : Option Request} (hl : line = .sent q)
    (h : line.Serves q?) (e : BrokerError) : (Line.replied (.error e)).Serves q? := by
  subst hl
  cases q? with
  | none => exact h.elim
  | some q' => exact fits_error q' e

/-- Something else is on the worker's line. -/
theorem coupled_work (h : FencedLog.Coupled v own work call) {q : Request} (hl : work = .sent q)
    {work' : Line} (hs : ∀ q?, work.Serves q? → work'.Serves q?) :
    FencedLog.Coupled v own work' call where
  sane := h.sane
  running := h.running
  own := h.own
  fresh := h.fresh
  unmanned := fun hn => by
    have := (h.unmanned hn).2
    rw [hl] at this
    cases this
  manned := fun w hw =>
    have hm := h.manned w hw
    ⟨hm.identity, hm.txid, hm.sound, hm.shape, hs _ hm.serves⟩

/-- Something else is on the session's line. -/
theorem coupled_own (h : FencedLog.Coupled v own work call) {own' : Line}
    (hs : own'.Serves v.request?) : FencedLog.Coupled v own' work call :=
  ⟨h.sane, h.running, hs, h.fresh, h.unmanned, h.manned⟩

/-! ### Every act -/

/-- **Every act on a coupled scene is one of the steps, and keeps it coupled.** -/
theorem Coupled.act (h : σ.Coupled) (a : Act) : σ.Step a (σ.act a) ∧ (σ.act a).Coupled := by
  cases a with
  | call op => exact goes_call h op
  | others op => exact ⟨.others op, h⟩
  | reach side now lost =>
    cases side <;> simp only [Scene.act] <;> split
    · rename_i q hq
      exact ⟨.reachOwn now lost q hq, coupled_own h (serves_reply hq h.own _ now lost)⟩
    · exact ⟨.same _, h⟩
    · rename_i q hq
      exact ⟨.reachWork now lost q hq, coupled_work h hq fun _ hs => serves_reply hq hs _ now lost⟩
    · exact ⟨.same _, h⟩
  | refuse side e =>
    cases side <;> simp only [Scene.act] <;> split
    · rename_i q hq
      exact ⟨.refuseOwn e q hq, coupled_own h (serves_refusal hq h.own e)⟩
    · exact ⟨.same _, h⟩
    · rename_i q hq
      exact ⟨.refuseWork e q hq, coupled_work h hq fun _ hs => serves_refusal hq hs e⟩
    · exact ⟨.same _, h⟩
  | hear side =>
    cases side with
    | own => exact goes_hear_own h
    | work => exact goes_hear_work h
  | wake => exact goes_wake h
  | outwait => exact goes_outwait h
  | round visible => exact goes_round h visible
  | drain => exact goes_drain h
  | die => exact goes_die h

theorem coupled_start (broker : BrokerConfig) (config : SessionConfig) :
    (start broker config).Coupled where
  sane := sane_of (fun h => nomatch h) (fun o h => by cases o <;> cases h) (fun h => absurd rfl h)
  running := fun h => absurd rfl h
  own := trivial
  fresh := fun _ => rfl
  unmanned := fun _ => ⟨rfl, rfl⟩
  manned := fun w hw => nomatch hw

/-- Whose worker is gone had none. -/
theorem Coupled.unmanned_of {τ : Scene} (hc : σ.Coupled) (hτ : τ.Coupled)
    (hid : τ.session.stance.identity = σ.session.stance.identity)
    (hn : τ.session.stance.worker = none) : σ.session.stance.worker = none := by
  cases hw : σ.session.stance.worker with
  | none => rfl
  | some w =>
    have h := (hc.manned w hw).identity
    rw [← hid, (hτ.unmanned hn).1] at h
    cases h

/-! ### What is asked -/

/-- The request of a session: for an identity, for a listing, or for an end. -/
theorem Coupled.asked (hc : σ.Coupled) {q : Request} (hq : σ.own = .sent q) :
    (σ.session.stance.lifecycle = .uninitialized ∧
      ∃ timeout, q = .init σ.session.config.txid timeout) ∨
    (∃ topic, q = .listing topic ∧ ∀ o back, σ.session.stance.wait ≠ .finish o back) ∨
    ∃ o back id, σ.session.stance.wait = .finish o back ∧ σ.session.stance.identity = some id ∧
      q = .finish σ.session.config.txid id o := by
  have hs := hc.own
  rw [hq] at hs
  cases hw : σ.session.stance.wait with
  | identity =>
    obtain ⟨op, lc, -, hrun⟩ := hc.running (by simp [hw])
    rw [hw] at hrun
    cases hrun with
    | identity hn =>
      simp only [request?, hw] at hs
      exact Or.inl ⟨hn, _, hs⟩
  | listing topic =>
    simp only [request?, hw] at hs
    exact Or.inr (Or.inl ⟨_, hs, by simp⟩)
  | routing draft ticket present =>
    simp only [request?, hw] at hs
    exact Or.inr (Or.inl ⟨_, hs, by simp⟩)
  | finish o back =>
    simp only [request?, hw] at hs
    cases hid : σ.session.stance.identity with
    | none =>
      rw [hid] at hs
      exact hs.elim
    | some id =>
      rw [hid] at hs
      exact Or.inr (Or.inr ⟨o, back, id, rfl, rfl, hs⟩)
  | _ =>
    simp only [request?, hw] at hs
    exact hs.elim

/-- The request of a worker: to enroll, or to append. -/
theorem Coupled.ordered (hc : σ.Coupled) {q : Request} (hq : σ.work = .sent q) :
    ∃ w, σ.session.stance.worker = some w ∧ Mans σ.session.stance w σ.work ∧
      ((∃ fresh batches barrier, w.phase = .enrolling fresh batches barrier ∧
        q = .enroll w.txid w.identity fresh) ∨
      ∃ batch rest barrier, w.phase = .appending batch rest barrier ∧
        q = .append w.txid w.identity batch.partition batch.records) := by
  cases hw : σ.session.stance.worker with
  | none =>
    have := (hc.unmanned hw).2
    rw [hq] at this
    cases this
  | some w =>
    have hm := hc.manned w hw
    have hs := hm.serves
    rw [hq] at hs
    refine ⟨w, rfl, hm, ?_⟩
    cases hp : w.phase with
    | enrolling fresh batches barrier =>
      simp only [Worker.request?, hp] at hs
      exact Or.inl ⟨fresh, batches, barrier, rfl, hs⟩
    | appending batch rest barrier =>
      simp only [Worker.request?, hp] at hs
      exact Or.inr ⟨batch, rest, barrier, rfl, hs⟩
    | idle =>
      simp only [Worker.request?, hp] at hs
      exact hs.elim
    | stopped =>
      simp only [Worker.request?, hp] at hs
      exact hs.elim

end Coupled

end Scene
end FencedLog
