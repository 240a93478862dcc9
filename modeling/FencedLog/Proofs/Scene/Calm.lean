/-
# A transaction in calm weather

A scene is calm while every request is answered and nobody else touches the
topics that the session sends to, its records arrive, and its owner sends,
flushes and commits (`Scene.Calm`). Whatever the order in which the session,
its worker and the lines come to move, and however much the worker takes at a
time, the scene is on one voyage (`Sails`): what the broker has got, what
the worker has left and what was acknowledged are together the loads of the
sends, each lane in order.

This module has the voyage, and the acts of the worker and of the broker; those
of the session are in `FencedLog.Proofs.Scene.Passage`.

Key definitions: `Scene.Calm`, `Origin`, `Awaits`, `Voyage`, `Sails`,
`Origin.Bears`.
Key theorems: `Sails.round`, `Sails.hear_work`, `Sails.reach_work`,
`Sails.reach_own`, `Sails.others`.
-/
import FencedLog.Proofs.Scene.Haul

namespace FencedLog

/-- What happens in calm weather: others leave our topics alone, no answer is
lost and none refused on the way, the worker lives, and the owner does nothing
in the transaction but send what arrives, flush, and commit. -/
def Scene.Calm (ours : String → Prop) (σ : Scene) : Act → Prop
  | .call (.send draft ticket present) => σ.session.lifecycle = .inTransaction ∧
    Sent.Arrives ⟨draft, ticket, present⟩ ours σ.chronicle.broker
      (σ.session.reckon σ.chronicle.broker) σ.session.rotation
  | .call .flush | .call (.finish .commit) => σ.session.lifecycle = .inTransaction
  | .others op => σ.chronicle.broker.Aside ours σ.session.config.txid op
  | .reach _ _ lost => lost = none
  | .hear _ | .wake | .round _ => True
  | _ => False

/-- What a transaction starts from. -/
structure Origin where
  broker : Broker
  txid : String
  identity : Identity
  /-- How many partitions the session takes a topic to have. -/
  count : String → Nat
  rotation : Nat
  /-- Whether the transaction may be one that the identity has left open. -/
  inherited : Bool
  accepted : List Sent
  completed : List (Ticket × Completion)

namespace Origin

variable (o : Origin)

/-- The loads of some sends. -/
def loads (sends : List Sent) : List Freight := (manifest o.count o.rotation sends).1

/-- The rotation after some sends. -/
def turned (sends : List Sent) : Nat := (manifest o.count o.rotation sends).2

/-- The partitions that are enrolled from the beginning. -/
def held (p : TopicPartition) : Prop := o.broker.held o.txid p

/-- The partitions that the commit of some sends marks. -/
def Marks (sends : List Sent) (p : TopicPartition) : Prop := o.held p ∨ lane p (o.loads sends) ≠ []

/-- Nothing has happened to our topics but these loads and enrollments. -/
def Carries (ours : String → Prop) (claimed : TopicPartition → Prop) (loads : List Freight)
    (b : Broker) : Prop :=
  o.broker.Carries ours o.txid o.identity claimed loads b

/-- Nothing has happened to our topics but these sends and their commit. -/
def Settled (ours : String → Prop) (sends : List Sent) (b : Broker) : Prop :=
  o.broker.Settled ours o.identity (o.Marks sends) (o.loads sends) b

end Origin

/-- What a session waits for in its transaction once some sends were accepted. -/
inductive Awaits (o : Origin) (ours : String → Prop) (sends : List Sent) (s : Session) (own : Line)
    (call : Option Call) : Prop
  /-- A commit that was refused had nothing to commit. -/
  | nothing (hw : s.wait = .nothing) (hr : s.rotation = o.turned sends)
      (hc : ∀ r, call = some ⟨.finish .commit, .inTransaction, some r⟩ →
        sends = [] ∧ o.inherited = true ∧ ∀ p, ¬ o.held p)
  | routing (x : Sent) (hw : s.wait = .routing x.draft x.ticket x.present)
      (hr : s.rotation = o.turned sends) (hx : x.Arrives ours o.broker o.count (o.turned sends))
      (hn : o.count x.draft.topic = o.broker.breadth x.draft.topic)
      (ho : ∀ answer, own = .replied answer →
        ∃ infos, answer = .ok (.partitions infos) ∧ infos.length = o.count x.draft.topic)
  | crowded (x : Sent) (lc : Lifecycle)
      (hw : s.wait = .room (.send (x.pending o.count (o.turned sends))) .sent)
      (hr : s.rotation = o.turned (sends ++ [x]))
      (hx : x.Arrives ours o.broker o.count (o.turned sends))
      (hc : call = some ⟨.send x.draft x.ticket x.present, lc, none⟩)
  | flushing (next : AfterFlush) (hn : next = .report ∨ next = .finish .commit)
      (hw : s.wait = .room (.barrier .flush) (.flush next) ∨ s.wait = .flush next)
      (hr : s.rotation = o.turned sends)

/-- How far a transaction has come: partitions are claimed for it and loads
carried, and perhaps the broker is asked to commit it, or has answered. -/
inductive Voyage (o : Origin) (ours : String → Prop) (sends : List Sent)
    (claimed : TopicPartition → Prop) (carried : List Freight) (b : Broker) (s : Session)
    (own : Line) (call : Option Call) : Prop
  | underway (hl : s.lifecycle = .inTransaction) (hi : s.inherited = o.inherited)
      (hw : Awaits o ours sends s own call) (hb : o.Carries ours claimed carried b)
  | asked (hl : s.lifecycle = .committing) (hi : s.inherited = o.inherited)
      (hr : s.rotation = o.turned sends) (hw : s.wait = .finish .commit .inTransaction)
      (ho : own = .sent (.finish o.txid o.identity .commit))
      (hs : o.inherited = true ∨ s.shared.started = true) (hb : o.Carries ours claimed carried b)
  | granted (hl : s.lifecycle = .committing) (hw : s.wait = .finish .commit .inTransaction)
      (ho : own = .replied (.ok .finished)) (hb : o.Settled ours sends b)
  | refused (hl : s.lifecycle = .committing) (hi : s.inherited = o.inherited)
      (hr : s.rotation = o.turned sends) (hw : s.wait = .finish .commit .inTransaction)
      (reason : String) (ho : own = .replied (.error (.invalidState reason)))
      (hn : sends = [] ∧ o.inherited = true ∧ ∀ p, ¬ o.held p)
      (hb : o.Carries ours claimed carried b)

/-- A transaction in calm weather, once some sends were accepted and some
records acknowledged. -/
structure Sails (o : Origin) (ours : String → Prop) (sends : List Sent) (acked : List Receipt)
    (w : Worker) (h : History) : Prop where
  coupled : h.scene.Coupled
  agrees : h.scene.Agrees h.book
  steers : h.scene.session.Steers ours o.broker o.count o.txid o.identity
  worker : h.scene.session.worker = some w
  hauls : Hauls o.broker (o.loads sends) acked w h.scene.work h.scene.session.shared.started
  voyage : Voyage o ours sends (fun p => w.Claims h.scene.work p ∨ o.held p)
    ((acked ++ w.landed h.scene.work).map Receipt.freight) h.scene.chronicle.broker h.scene.session
    h.scene.own h.book.call
  takes : ∀ f ∈ o.loads sends, o.broker.Takes ours f
  accepted : h.book.accepted = o.accepted ++ sends
  completed : h.book.completed = o.completed ++ acked.map Receipt.completion

/-- The broker carries what was acknowledged and what has landed, and has
enrolled what the worker has claimed. -/
def Origin.Bears (o : Origin) (ours : String → Prop) (acked : List Receipt) (w : Worker)
    (h : History) : Prop :=
  o.Carries ours (fun p => w.Claims h.scene.work p ∨ o.held p)
    ((acked ++ w.landed h.scene.work).map Receipt.freight) h.scene.chronicle.broker

variable {o : Origin} {ours : String → Prop} {sends : List Sent} {acked : List Receipt}
  {w w' : Worker} {h h' : History} {s s' : Session} {own own' : Line} {call : Option Call}
  {claimed claimed' : TopicPartition → Prop} {carried carried' : List Freight} {b b' : Broker}

/-! ### The voyage -/

theorem Origin.loads_append (o : Origin) (sends : List Sent) (x : Sent) :
    o.loads (sends ++ [x]) = o.loads sends ++ routed [x.pending o.count (o.turned sends)] :=
  congrArg Prod.fst (manifest_append o.count x sends o.rotation)

theorem Origin.turned_append (o : Origin) (sends : List Sent) (x : Sent) :
    o.turned (sends ++ [x]) = (x.assign o.count (o.turned sends)).2 :=
  congrArg Prod.snd (manifest_append o.count x sends o.rotation)

theorem Origin.sends_of_loads {o : Origin} (hl : ∀ p, lane p (o.loads sends) = []) : sends = [] := by
  have hloads : o.loads sends = [] := eq_nil_of_lanes hl
  have ht := tickets_manifest o.count sends o.rotation
  rw [show (manifest o.count o.rotation sends).1 = [] from hloads] at ht
  exact List.map_eq_nil_iff.mp ht.symm

theorem Awaits.transfer (h : Awaits o ours sends s own call) (hw : s'.wait = s.wait)
    (hr : s'.rotation = s.rotation) : Awaits o ours sends s' own call := by
  cases h with
  | nothing hw₀ hr₀ hc => exact .nothing (hw.trans hw₀) (hr.trans hr₀) hc
  | routing x hw₀ hr₀ hx hn ho => exact .routing x (hw.trans hw₀) (hr.trans hr₀) hx hn ho
  | crowded x lc hw₀ hr₀ hx hc => exact .crowded x lc (hw.trans hw₀) (hr.trans hr₀) hx hc
  | flushing next hn hw₀ hr₀ => exact .flushing next hn (by rwa [hw]) (hr.trans hr₀)

/-- A session under way that has asked for something has asked for the
partitions of a topic. -/
theorem Awaits.routes (h : Awaits o ours sends s own call)
    (hs : own.Serves s.stance.request?) (hi : own ≠ .idle) :
    ∃ x : Sent, s.wait = .routing x.draft x.ticket x.present ∧ s.rotation = o.turned sends ∧
      x.Arrives ours o.broker o.count (o.turned sends) ∧
      o.count x.draft.topic = o.broker.breadth x.draft.topic ∧
      ∀ answer, own = .replied answer → ∃ infos, answer = .ok (.partitions infos) ∧
        infos.length = o.count x.draft.topic := by
  have quiet : s.stance.request? ≠ none := fun hn => hi (Line.serves_none.mp (hn ▸ hs))
  cases h with
  | routing x hw hr hx hn ho => exact ⟨x, hw, hr, hx, hn, ho⟩
  | nothing hw => simp [Stance.request?, Session.stance, hw] at quiet
  | crowded x lc hw => simp [Stance.request?, Session.stance, hw] at quiet
  | flushing next hn hw =>
    rcases hw with hw | hw <;> simp [Stance.request?, Session.stance, hw] at quiet

/-- What is no matter of the session keeps the voyage. -/
theorem Voyage.transfer (h : Voyage o ours sends claimed carried b s own call)
    (hl : s'.lifecycle = s.lifecycle) (hi : s'.inherited = s.inherited) (hw : s'.wait = s.wait)
    (hr : s'.rotation = s.rotation) (hs : s.shared.started = true → s'.shared.started = true)
    (hb : o.Carries ours claimed carried b → o.Carries ours claimed' carried' b')
    (hd : s.lifecycle ≠ .inTransaction → o.Settled ours sends b → o.Settled ours sends b') :
    Voyage o ours sends claimed' carried' b' s' own call := by
  cases h with
  | underway hl₀ hi₀ hw₀ hb₀ =>
    exact .underway (hl.trans hl₀) (hi.trans hi₀) (hw₀.transfer hw hr) (hb hb₀)
  | asked hl₀ hi₀ hr₀ hw₀ ho hs₀ hb₀ =>
    exact .asked (hl.trans hl₀) (hi.trans hi₀) (hr.trans hr₀) (hw.trans hw₀) ho (hs₀.imp_right hs)
      (hb hb₀)
  | granted hl₀ hw₀ ho hb₀ =>
    exact .granted (hl.trans hl₀) (hw.trans hw₀) ho (hd (by simp [hl₀]) hb₀)
  | refused hl₀ hi₀ hr₀ hw₀ reason ho hn hb₀ =>
    exact .refused (hl.trans hl₀) (hi.trans hi₀) (hr.trans hr₀) (hw.trans hw₀) reason ho hn (hb hb₀)

theorem Voyage.lifecycle (h : Voyage o ours sends claimed carried b s own call) :
    s.lifecycle = .inTransaction ∨ s.lifecycle = .committing := by
  cases h with
  | underway hl => exact Or.inl hl
  | asked hl => exact Or.inr hl
  | granted hl => exact Or.inr hl
  | refused hl => exact Or.inr hl

/-- The worker of a session that is ready has nothing to do. -/
theorem Scene.Coupled.rests {σ : Scene} (hc : σ.Coupled) (hl : σ.session.lifecycle = .ready)
    (hn : σ.session.wait = .nothing) (hw : σ.session.worker = some w) :
    (w.phase = .idle ∨ w.phase = .stopped) ∧ (w.phase = .idle → w.queue = []) := by
  have hshape := (hc.manned w hw).shape
  replace hl : σ.session.stance.lifecycle = .ready := hl
  replace hn : σ.session.stance.wait = .nothing := hn
  refine ⟨(hshape.resting (by simp [hl]) (by simp [hl])).1, fun hidle => ?_⟩
  obtain ⟨reset, ps, hagenda, -, hquiet⟩ := hshape.agenda (by simp [hidle])
  obtain ⟨rfl, rfl, -⟩ := hquiet (by simp [hl]) (by simp [hl])
  rw [hn, Worker.agenda, hidle] at hagenda
  simpa [Phase.barrier, resetting, flushing] using hagenda

/-- An act that is an event without effect. -/
theorem History.act_idle {a : Act} {e : Event} (hact : h.scene.act a = h.scene.perform e)
    (hevent : h.scene.event? a = some e) (hcalled : h.book.called h.scene.session e = h.book)
    (hstep : h.scene.session.step e = (h.scene.session, [])) :
    (h.act a).scene = h.scene ∧ (h.act a).book = h.book := by
  constructor
  · refine hact.trans ?_
    rw [Scene.perform, hstep]
    rfl
  · simp only [History.act, hevent, Option.elim, Daybook.step, hstep, hcalled, List.foldl_nil]

/-- Nothing happens where there is no answer to hear of. -/
theorem History.hear_silent {side : Side} (he : h.scene.event? (.hear side) = none) :
    (h.act (.hear side)).scene = h.scene ∧ (h.act (.hear side)).book = h.book := by
  constructor
  · show h.scene.act (.hear side) = h.scene
    cases side with
    | own =>
      cases hl : h.scene.own with
      | replied answer => simp only [Scene.event?, hl, reduceCtorEq] at he
      | _ => simp only [Scene.act, hl]
    | work =>
      cases hl : h.scene.work with
      | replied answer => simp only [Scene.event?, hl, reduceCtorEq] at he
      | _ => simp only [Scene.act, hl]
  · simp only [History.act, he, Option.elim]

namespace Sails

theorem mans (hs : Sails o ours sends acked w h) : Mans h.scene.session.stance w h.scene.work :=
  hs.coupled.manned w hs.worker

/-- Once the broker is asked to commit the worker has nothing to do. -/
theorem rests (hs : Sails o ours sends acked w h) (hl : h.scene.session.lifecycle ≠ .inTransaction) :
    w.phase = .idle ∧ h.scene.work = .idle ∧ w.cargo = [] := by
  have hc : h.scene.session.lifecycle ≠ .closed := by
    rcases hs.voyage.lifecycle with h | h <;> simp [h]
  obtain ⟨hidle, hqueue⟩ := hs.mans.shape.resting hl hc
  replace hidle := hidle.resolve_right hs.hauls.alive
  refine ⟨hidle, Scene.work_idle hs.coupled hs.worker (by rw [Worker.request?, hidle]), ?_⟩
  rw [Worker.cargo, hidle, hqueue hs.hauls.alive]
  rfl

/-- A worker with nothing left to do has had everything acknowledged. -/
theorem lane_acked (hs : Sails o ours sends acked w h) (hw : w.cargo = []) (p : TopicPartition) :
    lane p (acked.map Receipt.freight) = lane p (o.loads sends) := by
  rw [hs.hauls.lanes p, hw, lane_nil, List.append_nil]

/-- Then it has claimed the partitions that it had something for. -/
theorem marks_iff (hs : Sails o ours sends acked w h) (hw : w.cargo = []) (p : TopicPartition) :
    w.Claims h.scene.work p ∨ o.held p ↔ o.Marks sends p := by
  rw [Origin.Marks, or_comm]
  refine or_congr_right ⟨fun hc => hs.hauls.awaited p (hc.imp_right And.left), fun hl => Or.inl ?_⟩
  exact hs.hauls.known p (hs.lane_acked hw p ▸ hl)

/-- The broker and the book may change, and the line of the session, but
nothing else. -/
theorem onward (hs : Sails o ours sends acked w h) (hc : h'.scene.Coupled)
    (ha : h'.scene.Agrees h'.book) (hsession : h'.scene.session = h.scene.session)
    (hwork : h'.scene.work = h.scene.work) (hbook : h'.book = h.book)
    (hvoyage : Voyage o ours sends (fun p => w.Claims h.scene.work p ∨ o.held p)
      ((acked ++ w.landed h.scene.work).map Receipt.freight) h'.scene.chronicle.broker
      h.scene.session h'.scene.own h.book.call) : Sails o ours sends acked w h' where
  coupled := hc
  agrees := ha
  steers := hsession ▸ hs.steers
  worker := hsession ▸ hs.worker
  hauls := by
    rw [hsession, hwork]
    exact hs.hauls
  voyage := by
    rw [hsession, hwork, hbook]
    exact hvoyage
  takes := hs.takes
  accepted := hbook ▸ hs.accepted
  completed := hbook ▸ hs.completed

/-- Nothing happens. -/
theorem same (hs : Sails o ours sends acked w h) (hscene : h'.scene = h.scene)
    (hbook : h'.book = h.book) : Sails o ours sends acked w h' :=
  hs.onward (hscene ▸ hs.coupled) (hscene ▸ hbook ▸ hs.agrees) (by rw [hscene]) (by rw [hscene]) hbook
    (by rw [hscene]; exact hs.voyage)

/-! ### Somebody else -/

/-- **Others go about their business.** -/
theorem others (hs : Sails o ours sends acked w h) {op : Broker.Op}
    (ho : h.scene.Calm ours (.others op)) : Sails o ours sends acked w (h.act (.others op)) := by
  have haside : h.scene.chronicle.broker.Aside ours o.txid op := hs.steers.txid ▸ ho
  refine hs.onward (hs.coupled.act (.others op)).2 (Scene.agrees_act hs.agrees (.others op)) rfl rfl
    rfl ?_
  exact hs.voyage.transfer rfl rfl rfl rfl id (fun hb => hb.aside haside) fun _ hd => hd.aside haside

/-! ### The worker -/

/-- What has landed is for partitions that are enrolled. -/
theorem registered_landed (hs : Sails o ours sends acked w h) :
    ∀ x ∈ w.landed h.scene.work, w.Registered x.partition := by
  intro x hx
  unfold Worker.landed at hx
  split at hx
  · split at hx
    · rename_i batch rest barrier hp
      rw [(mem_receipts hx).1]
      exact ⟨hs.hauls.alive, hs.mans.shape.not_resetting (by simp [hp]) hs.hauls.alive,
        hs.mans.sound.known _ _ _ hp batch List.mem_cons_self⟩
    all_goals exact absurd hx List.not_mem_nil
  · exact absurd hx List.not_mem_nil

/-- The worker moves on from its queue, or from an answer. -/
theorem moved (hs : Sails o ours sends acked w h) {a : Act} {e : Event}
    {f : Delivery → Delivery × List Deed} (he : ∀ s : Session, s.step e = s.deliver f)
    (hact : h.scene.act a = { h.scene with work := .idle }.perform e)
    (hevent : h.scene.event? a = some e) (hcalled : h.book.called h.scene.session e = h.book)
    {d₀ : Delivery} {barrier : Option Barrier} {taken : List Freight}
    {acks : List (Ticket × Placement)} {q : Option Request}
    (hsource : Source w h.scene.work d₀.worker barrier taken acks none)
    (hgoes : Delivery.Goes d₀ barrier taken (f ⟨w, h.scene.session.shared⟩) q)
    (hstarted : d₀.shared.started = h.scene.session.shared.started)
    (hspares : Delivery.Spares ⟨w, h.scene.session.shared⟩ (w.landed h.scene.work)
      (f ⟨w, h.scene.session.shared⟩)) :
    Sails o ours sends (acked ++ w.landed h.scene.work) (f ⟨w, h.scene.session.shared⟩).1.worker
      (h.act a) := by
  have hperform := Scene.perform_deliver (σ := { h.scene with work := .idle }) hs.worker (he _)
    hgoes.asks
  have hscene : (h.act a).scene = _ := hact.trans hperform
  have hbook : (h.act a).book = { h.book with
      completed := h.book.completed ++ completions (f ⟨w, h.scene.session.shared⟩).2
      dropped := h.book.dropped ++ drops (f ⟨w, h.scene.session.shared⟩).2 } := by
    simp only [History.act, hevent, Option.elim, Daybook.step, he, hcalled, Session.deliver,
      hs.worker]
    exact Daybook.foldl_deeds _ _
  obtain ⟨hhauls, hclaims⟩ := hs.hauls.move hsource hgoes hstarted hspares rfl
    (fun hi => hs.mans.shape.not_resetting hi hs.hauls.alive) hs.registered_landed
  have hlanded : (f ⟨w, h.scene.session.shared⟩).1.worker.landed (asking q) = [] := by
    cases q <;> rfl
  exact {
    coupled := (hs.coupled.act a).2
    agrees := Scene.agrees_act hs.agrees a
    steers := by
      rw [hscene]
      refine ⟨hs.steers.txid, hs.steers.identity, hspares.fatal, fun topic ht => ?_⟩
      rw [← hs.steers.reckons topic ht, Session.reckon, hspares.topics]
      rfl
    worker := by rw [hscene]
    hauls := by
      rw [hscene]
      exact hhauls
    voyage := by
      rw [hscene, hbook]
      have hcarried : (acked ++ w.landed h.scene.work ++
          (f ⟨w, h.scene.session.shared⟩).1.worker.landed (asking q)).map Receipt.freight =
          (acked ++ w.landed h.scene.work).map Receipt.freight := by rw [hlanded, List.append_nil]
      exact hs.voyage.transfer rfl rfl rfl rfl (fun hst => hgoes.started (hstarted.trans hst))
        (fun hb => hb.congr (fun p => or_congr_left (hclaims p)) fun p => congrArg (lane p) hcarried)
        fun _ hd => hd
    takes := hs.takes
    accepted := by
      rw [hbook]
      exact hs.accepted
    completed := by
      rw [hbook, List.map_append, ← List.append_assoc, ← hs.completed, ← hspares.completions] }

/-- In calm weather nothing is refused. -/
theorem unrefused (hs : Sails o ours sends acked w h) {answer : Answer}
    (hl : h.scene.work = .replied answer) : ¬ ∃ e, answer = .error e := by
  rintro ⟨e, rfl⟩
  exact hs.hauls.answers e hl

/-- **The worker takes a round.** -/
theorem round (hs : Sails o ours sends acked w h) (visible : Nat) :
    ∃ acked' w', Sails o ours sends acked' w' (h.act (.round visible)) := by
  have he : ∀ s : Session, s.step (.round visible) = s.deliver (·.round visible) := fun _ => rfl
  rcases Delivery.goes_round ⟨w, h.scene.session.shared⟩ visible with
    ⟨-, hr⟩ | ⟨hp, pending, barrier, rest, q, hq, hgoes, -, -⟩
  · -- a busy worker does not
    have hstep : h.scene.session.step (.round visible) = (h.scene.session, []) := by
      rw [he, Session.deliver, hs.worker]
      simp only [hr, ← hs.worker]
      rfl
    obtain ⟨hscene, hbook⟩ := History.act_idle (a := .round visible) rfl rfl rfl hstep
    exact ⟨acked, w, hs.same hscene hbook⟩
  · replace hp : w.phase = .idle := hp
    have hidle := Scene.work_idle hs.coupled hs.worker (by rw [Worker.request?, hp])
    have hact : h.scene.act (.round visible) =
        { h.scene with work := .idle }.perform (.round visible) := by
      rw [← hidle]
      rfl
    have hspares := Delivery.spares_round (d := ⟨w, h.scene.session.shared⟩) hp hs.steers.fatal
      hs.hauls.bound visible
    have hlanded : w.landed h.scene.work = [] := landed_of_phase (by simp [hp]) _
    exact ⟨_, _, hs.moved he hact rfl rfl (.round pending barrier rest hp hq) hgoes rfl
      (hlanded.symm ▸ hspares)⟩

/-- **The worker hears of what it has asked for.** -/
theorem hear_work (hs : Sails o ours sends acked w h) :
    ∃ acked' w', Sails o ours sends acked' w' (h.act (.hear .work)) := by
  cases hl : h.scene.work with
  | idle | sent _ =>
    have he : h.scene.event? (.hear .work) = none := by simp only [Scene.event?, hl]
    obtain ⟨hscene, hbook⟩ := History.hear_silent he
    exact ⟨acked, w, hs.same hscene hbook⟩
  | replied answer =>
    have he : ∀ s : Session, s.step (.delivered answer) = s.deliver (·.answered answer) :=
      fun _ => rfl
    have hact : h.scene.act (.hear .work) =
        { h.scene with work := .idle }.perform (.delivered answer) := by
      simp only [Scene.act, hl]
    have hevent : h.scene.event? (.hear .work) = some (.delivered answer) := by
      simp only [Scene.event?, hl]
    have hserves := hs.mans.serves
    have hsound := hs.mans.sound
    rw [hl] at hserves
    cases hp : w.phase with
    | idle =>
      simp only [Worker.request?, hp] at hserves
      exact hserves.elim
    | stopped => exact absurd hp hs.hauls.alive
    | enrolling fresh batches barrier =>
      simp only [Worker.request?, hp] at hserves
      obtain rfl := (fits_enroll hserves).resolve_right (hs.unrefused hl)
      obtain ⟨⟨q, hgoes⟩, -⟩ := Delivery.goes_enrolled (d := ⟨w, h.scene.session.shared⟩) hp
        (hsound.fresh _ _ _ hp).2
      have hspares := Delivery.spares_enrolled (d := ⟨w, h.scene.session.shared⟩) hs.steers.fatal hp
      have hlanded : w.landed h.scene.work = [] := landed_of_phase (by simp [hp]) _
      exact ⟨_, _, hs.moved he hact hevent rfl (.enrolled fresh batches barrier hp hl) hgoes rfl
        (hlanded.symm ▸ hspares)⟩
    | appending batch rest barrier =>
      simp only [Worker.request?, hp] at hserves
      obtain ⟨base, rfl⟩ := (fits_append hserves).resolve_right (hs.unrefused hl)
      obtain ⟨⟨q, hgoes⟩, -⟩ := Delivery.goes_appended (d := ⟨w, h.scene.session.shared⟩) hp
        (fun b hb => hsound.known _ _ _ hp b (List.mem_cons_of_mem _ hb)) base
      have hspares := Delivery.spares_appended (d := ⟨w, h.scene.session.shared⟩) hs.steers.fatal hp
        base
      have hlanded : w.landed h.scene.work = receipts batch.partition base batch.items := by
        rw [hl, Worker.landed, hp]
      exact ⟨_, _, hs.moved he hact hevent rfl (.appended batch rest barrier base hp hl) hgoes rfl
        (hlanded.symm ▸ hspares)⟩

/-! ### The broker -/

/-- A worker that waits for an answer has something to do, and the
transaction goes on. -/
theorem underway (hs : Sails o ours sends acked w h) (hi : h.scene.work ≠ .idle) :
    o.Bears ours acked w h := by
  have hl : h.scene.session.lifecycle = .inTransaction := by
    by_contra hl
    exact hi (hs.rests hl).2.1
  cases hs.voyage with
  | underway _ _ _ hb => exact hb
  | asked hl' => simp [hl] at hl'
  | granted hl' => simp [hl] at hl'
  | refused hl' => simp [hl] at hl'

/-- The broker takes what the worker asks for. -/
theorem handled (hs : Sails o ours sends acked w h) {q : Request} (hq : h.scene.work = .sent q)
    (now : Span) : ∃ reply, (h.scene.chronicle.broker.handle now q).2 = .ok reply ∧
      Hauls o.broker (o.loads sends) acked w (.replied (.ok reply))
        h.scene.session.shared.started ∧
      o.Carries ours (fun p => w.Claims (.replied (.ok reply)) p ∨ o.held p)
        ((acked ++ w.landed (.replied (.ok reply))).map Receipt.freight)
        (h.scene.chronicle.broker.act (.request now q)) := by
  have hb := hs.underway (by simp [hq])
  have htxid : w.txid = o.txid := hs.mans.txid.trans hs.steers.txid
  have hid : w.identity = o.identity :=
    Option.some.inj (hs.mans.identity.symm.trans hs.steers.identity)
  obtain ⟨w', hw', hm, ho⟩ := hs.coupled.ordered hq
  obtain rfl : w = w' := Option.some.inj (hs.worker.symm.trans hw')
  simp only [Origin.Bears, Origin.Carries, ← htxid, ← hid] at hb ⊢
  rcases ho with ⟨fresh, batches, barrier, hp, rfl⟩ | ⟨batch, rest, barrier, hp, rfl⟩
  · exact hs.hauls.reach_enroll hs.takes hp hq hb now
  · refine hs.hauls.reach_append hs.takes hp ⟨hs.hauls.alive, ?_, ?_⟩ hq hb now
    · exact hm.shape.not_resetting (by simp [hp]) hs.hauls.alive
    · exact hm.sound.known _ _ _ hp batch List.mem_cons_self

/-- **The request of the worker reaches the broker**, which takes it. -/
theorem reach_work (hs : Sails o ours sends acked w h) (now : Span) :
    Sails o ours sends acked w (h.act (.reach .work now none)) := by
  cases hq : h.scene.work with
  | sent q =>
    obtain ⟨reply, hok, hhauls, hcarries⟩ := hs.handled hq now
    have hscene : (h.act (.reach .work now none)).scene = h.scene.reachWork now none q := by
      simp only [History.act, Scene.act, hq]
    have hwork : (h.act (.reach .work now none)).scene.work = .replied (.ok reply) := by
      rw [hscene, ← hok]
      rfl
    have hsession : (h.act (.reach .work now none)).scene.session = h.scene.session := by
      rw [hscene]
      rfl
    exact {
      coupled := (hs.coupled.act _).2
      agrees := Scene.agrees_act hs.agrees (.reach .work now none)
      steers := hsession ▸ hs.steers
      worker := hsession ▸ hs.worker
      hauls := by
        rw [hsession, hwork]
        exact hhauls
      voyage := by
        rw [hsession, hwork, hscene]
        refine hs.voyage.transfer rfl rfl rfl rfl id (fun _ => hcarries) fun hl => ?_
        have := (hs.rests hl).2.1
        simp [hq] at this
      takes := hs.takes
      accepted := hs.accepted
      completed := hs.completed }
  | _ =>
    refine hs.same ?_ rfl
    show h.scene.act (.reach .work now none) = h.scene
    simp only [Scene.act, hq]

/-- The broker tells of a topic that exists. -/
theorem told_partitions (hb : o.Carries ours claimed carried b) {topic : String} (ht : ours topic)
    (hn : 0 < o.broker.breadth topic) (now : Span) :
    ∃ infos, (b.handle now (.listing topic)).2 = .ok (.partitions infos) ∧
      infos.length = o.broker.breadth topic ∧ b.act (.request now (.listing topic)) = b := by
  have hbreadth : b.breadth topic = o.broker.breadth topic := Broker.Carries.breadth hb ht
  obtain ⟨infos, hhandle, hlength⟩ :=
    Broker.handle_listing hb.available (show 0 < b.breadth topic from hbreadth ▸ hn) now
  exact ⟨infos, congrArg Prod.snd hhandle, hlength.trans hbreadth, congrArg Prod.fst hhandle⟩

/-- The broker is asked to commit what the worker has appended. -/
theorem committed (hs : Sails o ours sends acked w h)
    (hl : h.scene.session.lifecycle ≠ .inTransaction) (hb : o.Bears ours acked w h)
    (ha : o.inherited = true ∨ h.scene.session.shared.started = true) (now : Span) {q : Request}
    (hq : q = .finish o.txid o.identity .commit) :
    ((h.scene.chronicle.broker.handle now q).2 = .ok .finished ∧
      o.Settled ours sends (h.scene.chronicle.broker.act (.request now q))) ∨
    ∃ reason, (h.scene.chronicle.broker.handle now q).2 = .error (.invalidState reason) ∧
      (sends = [] ∧ o.inherited = true ∧ ∀ p, ¬ o.held p) ∧
      h.scene.chronicle.broker.act (.request now q) = h.scene.chronicle.broker := by
  subst hq
  obtain ⟨hidle, hwork, hcargo⟩ := hs.rests hl
  have hlanded : w.landed h.scene.work = [] := by rw [hwork]; rfl
  have hcarried : ∀ p, lane p ((acked ++ w.landed h.scene.work).map Receipt.freight) =
      lane p (o.loads sends) := fun p => by
    rw [hlanded, List.append_nil, hs.lane_acked hcargo]
  obtain ⟨hsettled, hanswer⟩ := Broker.Carries.finish hb (fun p _ hlane =>
    (hs.marks_iff hcargo p).mpr (Or.inr (hcarried p ▸ hlane))) now
  rcases hanswer with hok | ⟨hnone, hact, reason, herror⟩
  · exact Or.inl ⟨hok, hsettled.congr (fun p => (hs.marks_iff hcargo p).symm)
      fun p => (hcarried p).symm⟩
  · have hmarks : ∀ p, ¬ o.Marks sends p := fun p hm => hnone p ((hs.marks_iff hcargo p).mpr hm)
    refine Or.inr ⟨reason, herror, ⟨Origin.sends_of_loads (o := o) fun p => ?_, ?_,
      fun p hp => hmarks p (Or.inl hp)⟩, hact⟩
    · by_contra hlane
      exact hmarks p (Or.inr hlane)
    · refine ha.resolve_right fun hstarted => ?_
      obtain ⟨p, hr | hfresh⟩ := hs.hauls.started.mp hstarted
      · exact hnone p (Or.inl (Or.inl hr))
      · rw [hidle] at hfresh
        exact absurd hfresh List.not_mem_nil

/-- **The request of the session reaches the broker**, which answers it. -/
theorem reach_own (hs : Sails o ours sends acked w h) (now : Span) :
    Sails o ours sends acked w (h.act (.reach .own now none)) := by
  have hserves := hs.coupled.own
  cases hq : h.scene.own with
  | sent q =>
    rw [hq] at hserves
    have hscene : (h.act (.reach .own now none)).scene = h.scene.reachOwn now none q := by
      simp only [History.act, Scene.act, hq]
    have hagrees := Scene.agrees_act hs.agrees (.reach .own now none)
    refine hs.onward (hs.coupled.act _).2 hagrees (hscene ▸ rfl) (hscene ▸ rfl) rfl ?_
    rw [hscene]
    have hvoyage := hs.voyage
    rw [hq] at hvoyage
    cases hvoyage with
    | underway hl hi hw hb =>
      obtain ⟨x, hwait, hr, hx, hn, -⟩ := hw.routes hserves (by simp)
      obtain rfl : q = .listing x.draft.topic := by
        simpa [Stance.request?, Session.stance, hwait, Line.Serves] using hserves
      obtain ⟨infos, hanswer, hlength, hact⟩ := told_partitions hb hx.topic (hn ▸ hx.there) now
      refine .underway hl hi (.routing x hwait hr hx hn fun answer ha => ⟨infos, ?_, ?_⟩) ?_
      · rw [← hanswer]
        exact (Line.replied.inj ha).symm
      · rw [hlength, hn]
      · exact (congrArg (o.Carries ours _ _) hact).mpr hb
    | asked hl hi hr hw ho ha hb =>
      rcases hs.committed (by simp [hl]) hb ha now (Line.sent.inj ho) with
        ⟨hok, hsettled⟩ | ⟨reason, herror, hnone, hact⟩
      · exact .granted hl hw (congrArg Line.replied hok) hsettled
      · refine .refused hl hi hr hw reason (congrArg Line.replied herror) hnone ?_
        exact (congrArg (o.Carries ours _ _) hact).mpr hb
    | granted _ _ ho => cases ho
    | refused _ _ _ _ _ ho => cases ho
  | _ =>
    refine hs.same ?_ rfl
    show h.scene.act (.reach .own now none) = h.scene
    simp only [Scene.act, hq]

end Sails
end FencedLog
