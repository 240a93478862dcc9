/-
# A session that has its identity for itself

If nobody else uses the session's identity, and every request is answered or
fails before it reaches the broker, the session's transaction is one
transaction of the coordinator: the only one that is open under the identity
is the one in which the session has enrolled last, and all its enrollments are
in it. It stays open until the session ends it, unless it expires or a newer
instance takes over; then it is aborted and the identity superseded, so that
nothing more can be written under it (`Alone`).

Key definitions: `Scene.Exclusive`, `Persists`, `Scene.Alone`.
Key theorem: `Scene.Alone.step`.
-/
import FencedLog.Proofs.Broker.Alone
import FencedLog.Proofs.Scene.Concluded

namespace FencedLog

open Stance

/-- No transaction has been begun: the session is ready, or was when it asked
for the end of one. -/
def Settled (v : Stance) : Prop := v.lifecycle = .ready ∨ ∃ o, v.wait = .finish o .ready

/-- What may have become of the transaction in which a session has enrolled: it
is open, or was aborted with its identity superseded, or the session has ended
it or is about to hear that it has. -/
def Persists (c : Chronicle) (v : Stance) (own : Line) (T : Txn) : Prop :=
  c.Open T ∨ (c.ledger.ended T = some .abort ∧ c.broker.coordinator.Passed T.txid T.identity) ∨
    Settled v ∨ ((∃ o back, v.wait = .finish o back) ∧ own = .replied (.ok .finished))

namespace Scene

/-- What may happen when nobody else uses the session's identity, which it has
been given by the broker, when no topic is deleted, and when every request is
answered or fails on the way with an error that may be retried. -/
def Exclusive (σ : Scene) : Act → Prop
  | .call op => (∀ producer epoch, op ≠ .resume producer epoch) ∧ ∀ token, op ≠ .resumeFrom token
  | .others op => (∀ topic, op ≠ .deleteTopic topic) ∧ ∀ id, σ.Holds id →
      ∀ now q, op = .request now q → ¬ Broker.Under σ.session.config.txid id q
  | .reach _ _ lost => lost = none
  | .refuse _ e => e.isRetriable = true
  | _ => True

variable {σ τ : Scene} {a : Act}

theorem Exclusive.fair (h : σ.Exclusive a) : σ.Fair a := by
  cases a with
  | others op =>
    rintro ⟨id, hid, ⟨now, ps, he⟩ | ⟨now, p, records, he⟩⟩
    · exact h.2 id hid now _ he ⟨rfl, rfl⟩
    · exact h.2 id hid now _ he ⟨rfl, rfl⟩
  | _ => trivial

/-- The session's transactional id has moved on from this identity. -/
def Superseded (σ : Scene) (id : Identity) : Prop :=
  σ.chronicle.broker.coordinator.Passed σ.session.config.txid id

/-- What is known of the transactions under the identity of the session. -/
structure Alone (σ : Scene) : Prop where
  had : ∀ id, σ.Holds id → σ.chronicle.broker.coordinator.Had σ.session.config.txid id
  /-- Refusals that fence are right. -/
  own : ∀ id e, σ.session.stance.identity = some id →
    (∃ o back, σ.session.stance.wait = .finish o back) → σ.own = .replied (.error e) →
      e.isFencing = true → σ.Superseded id
  work : ∀ id e, σ.session.stance.identity = some id → σ.work = .replied (.error e) →
    e.isFencing = true → σ.Superseded id
  fatal : σ.session.stance.fatal = true →
    ∃ id, σ.session.stance.identity = some id ∧ σ.Superseded id
  /-- The only open transaction is the one that was enrolled in last. -/
  sole : ∀ id, σ.Holds id → ∀ U, σ.chronicle.Open U → U.txid = σ.session.config.txid →
    U.identity = id → σ.chapter.newest = some U ∧ ¬ Settled σ.session.stance
  one : σ.session.stance.lifecycle ≠ .closed →
    ∀ e ∈ σ.chapter.enrollments, e.2 = σ.chapter.newest
  alive : σ.session.stance.lifecycle ≠ .closed → ∀ T, σ.chapter.newest = some T →
    Persists σ.chronicle σ.session.stance σ.own T
  aborted : Ended σ.call .abort →
    ∀ T, σ.chapter.newest = some T → σ.chronicle.ledger.ended T = some .abort

theorem alone_start (broker : BrokerConfig) (config : SessionConfig) :
    (start broker config).Alone where
  had := fun id h => by rcases h with h | h <;> cases h
  own := fun id e h => nomatch h
  work := fun id e h => nomatch h
  fatal := fun h => nomatch h
  sole := fun id h => by rcases h with h | h <;> cases h
  one := fun _ e h => nomatch h
  alive := fun _ T h => nomatch h
  aborted := fun ⟨r, h⟩ => nomatch h

/-- The session enrolls in transactions of its own identity. -/
theorem Enlisted.newest_held (he : σ.Enlisted) (hc : σ.Coupled) {T : Txn}
    (hT : σ.chapter.newest = some T) :
    T.txid = σ.session.config.txid ∧ σ.session.stance.identity = some T.identity := by
  cases hw : σ.session.stance.worker with
  | none =>
    rw [Chapter.newest, (he.unmanned hw).1] at hT
    cases hT
  | some w =>
    obtain ⟨hx, hid⟩ := (he.manned w hw).newest_own hT
    have hm := hc.manned w hw
    exact ⟨hx.trans hm.txid, hid ▸ hm.identity⟩

/-! ### The broker acts -/

/-- Something is done that neither opens a transaction under the identity nor
ends one unheard, and the session's line may change. -/
theorem Alone.reach (h : σ.Alone) (he : σ.Enlisted) {op : Broker.Op} {line : Line}
    (hop : ∀ U, σ.Holds U.identity → U.txid = σ.session.config.txid →
      (σ.chronicle.act op).Open U → σ.chronicle.Open U)
    (hopen : ∀ T, σ.chapter.newest = some T → σ.chronicle.Open T →
      Persists (σ.chronicle.act op) σ.session.stance line T)
    (hline : σ.own = line ∨ σ.own ≠ .replied (.ok .finished))
    (hid : ∀ id, line = .replied (.ok (.identity id)) → σ.own = line ∨
      ((σ.chronicle.act op).broker.coordinator.Had σ.session.config.txid id ∧
        ¬ (σ.chronicle.act op).broker.coordinator.UnderWay σ.session.config.txid id))
    (herr : ∀ id e, σ.session.stance.identity = some id →
      (∃ o back, σ.session.stance.wait = .finish o back) → line = .replied (.error e) →
      e.isFencing = true → (σ.chronicle.act op).broker.coordinator.Passed σ.session.config.txid id) :
    Alone { σ with chronicle := σ.chronicle.act op, own := line } := by
  have hs := he.accounted.coordinator
  have hk := he.accounted.kept
  -- an identity that is held was held before, or has just been given out
  have held : ∀ id, σ.session.identity = some id ∨ line = .replied (.ok (.identity id)) →
      σ.Holds id ∨ ((σ.chronicle.act op).broker.coordinator.Had σ.session.config.txid id ∧
        ¬ (σ.chronicle.act op).broker.coordinator.UnderWay σ.session.config.txid id) := by
    rintro id (h' | h')
    · exact Or.inl (Or.inl h')
    · exact (hid id h').imp (fun heq => Or.inr (heq.trans h')) fun hn => hn
  constructor
  case had =>
    intro id hh
    rcases held id hh with hh | ⟨hh, -⟩
    · exact Broker.had_act hs (h.had id hh) op
    · exact hh
  case own => exact herr
  case work =>
    intro id e hi hw hf
    exact Broker.passed_act hs (h.work id e hi hw hf) op
  case fatal =>
    intro hf
    obtain ⟨id, hi, hp⟩ := h.fatal hf
    exact ⟨id, hi, Broker.passed_act hs hp op⟩
  case sole =>
    intro id hh U ho hx hi
    rcases held id hh with hh | ⟨-, hn⟩
    · subst hi
      exact h.sole _ hh U (hop U hh hx ho) hx rfl
    · refine absurd ?_ hn
      rw [← show U.txid = _ from hx, ← hi]
      exact (Chronicle.open_iff.mp ho).1
  case one => exact h.one
  case alive =>
    intro hcl T hT
    rcases h.alive hcl T hT with ho | ⟨ho, hp⟩ | hset | ⟨hw, hown⟩
    · exact hopen T hT ho
    · exact Or.inr (Or.inl ⟨Chronicle.ended_stable hk ho op, Broker.passed_act hs hp op⟩)
    · exact Or.inr (Or.inr (Or.inl hset))
    · exact Or.inr (Or.inr (Or.inr ⟨hw, (hline.resolve_right fun hne => hne hown) ▸ hown⟩))
  case aborted =>
    intro hend T hT
    exact Chronicle.ended_stable hk (h.aborted hend T hT) op

/-- Somebody else does something to the broker. -/
theorem Alone.others (h : σ.Alone) (he : σ.Enlisted) (hc : σ.Coupled) {op : Broker.Op}
    (ha : σ.Exclusive (.others op)) : Alone { σ with chronicle := σ.chronicle.act op } := by
  refine h.reach he (fun U hh hx ho => ?_) (fun T hT ho => ?_) (Or.inl rfl)
    (fun _ _ => Or.inl rfl) fun id e hi hw hl hf => ?_
  · refine Chronicle.open_of_open he.accounted.coordinator ho fun now ps hop => ?_
    exact ha.2 _ hh now _ hop ⟨hx, rfl⟩
  · obtain ⟨hx, hid⟩ := he.newest_held hc hT
    refine (Chronicle.ended_without he.accounted.coordinator ho fun now o hop => ?_).imp_right Or.inl
    exact ha.2 _ (Or.inl hid) now _ hop ⟨hx, rfl⟩
  · exact Broker.passed_act he.accounted.coordinator (h.own id e hi hw hl hf) op

/-- The broker answers the session. -/
theorem Alone.reachOwn (h : σ.Alone) (he : σ.Enlisted) (hc : σ.Coupled) {q : Request}
    (hq : σ.own = .sent q) (now : Span) : (σ.reachOwn now none q).Alone := by
  have hs := he.accounted.coordinator
  have hsent : σ.own = .replied (σ.chronicle.broker.handle now q).2 ∨
      σ.own ≠ .replied (.ok .finished) := Or.inr (by simp [hq])
  have hop : ∀ U, σ.Holds U.identity → U.txid = σ.session.config.txid →
      (σ.chronicle.act (.request now q)).Open U → σ.chronicle.Open U := fun U _ _ ho =>
    Chronicle.open_of_open hs ho fun now' ps => hc.own_ne_enroll hq now _ _ now' ps
  rcases hc.asked hq with ⟨hl, timeout, rfl⟩ | ⟨topic, rfl, hne⟩ | ⟨o, back, id, hw, hi, rfl⟩
  · -- without an identity there is nothing under way
    have hnone := hc.fresh hl
    refine h.reach he hop (fun T hT => ?_) hsent (fun id hid => Or.inr ?_) fun id e hi => ?_
    · rw [Chapter.newest, (he.unmanned hnone).1] at hT
      cases hT
    · exact Broker.init_ok hs (Line.replied.inj hid)
    · rw [(hc.unmanned hnone).1] at hi
      cases hi
  · refine h.reach he hop (fun T hT ho => ?_) hsent (fun id hid => ?_) fun id e _ hwait => ?_
    · exact (Chronicle.ended_without hs ho (by simp)).imp_right Or.inl
    · rcases fits_listing (fits_handle σ.chronicle.broker now (.listing topic)) with
        ⟨infos, ha⟩ | ⟨e, ha⟩ <;> rw [ha] at hid <;> cases hid
    · obtain ⟨o, back, hw⟩ := hwait
      exact absurd hw (hne o back)
  · have hfits := fits_finish (fits_handle σ.chronicle.broker now
      (.finish σ.session.config.txid id o))
    refine h.reach he hop (fun T hT ho => ?_) hsent (fun id' hid => ?_) fun id' e hi' _ hl hf => ?_
    · obtain ⟨hx, hid⟩ := he.newest_held hc hT
      obtain rfl := Option.some.inj (hi.symm.trans hid)
      rcases hfits with ha | ⟨e, ha⟩
      · exact Or.inr (Or.inr (Or.inr ⟨⟨o, back, hw⟩, by rw [ha]; rfl⟩))
      · rw [← hx] at ha ⊢
        exact Or.inl (Chronicle.open_of_unfinished ho ha)
    · rcases hfits with ha | ⟨e, ha⟩ <;> rw [ha] at hid <;> cases hid
    · obtain rfl := Option.some.inj (hi.symm.trans hi')
      exact Broker.passed_of_fencing hs (h.had id (Or.inl hi)) ⟨rfl, rfl⟩ (Line.replied.inj hl) hf

/-- While a request of the worker is under way the session is in a transaction,
or closed. -/
theorem Coupled.busy (hc : σ.Coupled) {q : Request} (hq : σ.work = .sent q) :
    ¬ Settled σ.session.stance ∧ ∀ o back, σ.session.stance.wait ≠ .finish o back := by
  have hne : σ.session.stance.lifecycle = .inTransaction ∨ σ.session.stance.lifecycle = .closed := by
    by_contra hn
    have := hc.work_of_resting (fun hl => hn (Or.inl hl)) fun hl => hn (Or.inr hl)
    rw [hq] at this
    cases this
  have hwait : ∀ o back, σ.session.stance.wait ≠ .finish o back := fun o back hw => by
    rw [hc.ending hw] at hne
    cases o <;> simp [Outcome.ending] at hne
  refine ⟨?_, hwait⟩
  rintro (hl | ⟨o, hw⟩)
  · rw [hl] at hne
    simp at hne
  · exact hwait o _ hw

/-- Something else is on the worker's line, or in the chapter, than what matters. -/
theorem Alone.work_of (h : σ.Alone) {line : Line} {chapter : Chapter}
    (hen : chapter.enrollments = σ.chapter.enrollments)
    (hw : ∀ id e, σ.session.stance.identity = some id → line = .replied (.error e) →
      e.isFencing = true → σ.Superseded id) :
    Alone { σ with work := line, chapter := chapter } := by
  have hnew : chapter.newest = σ.chapter.newest := by rw [Chapter.newest, hen, Chapter.newest]
  refine ⟨h.had, h.own, hw, h.fatal, ?_, ?_, ?_, ?_⟩
  · simp only [hnew]
    exact h.sole
  · simp only [hnew, hen]
    exact h.one
  · simp only [hnew]
    exact h.alive
  · simp only [hnew]
    exact h.aborted

/-- The worker enrolls partitions: in the transaction of its chapter, or in the
first one. -/
theorem Alone.enroll (h : σ.Alone) (he : σ.Enlisted) (hc : σ.Coupled) (hco : σ.Concluded)
    {w : Worker} (hw : σ.session.stance.worker = some w) {fresh : List TopicPartition}
    (hq : σ.work = .sent (.enroll w.txid w.identity fresh)) {now : Span}
    (ha : (σ.chronicle.broker.handle now (.enroll w.txid w.identity fresh)).2 = .ok .enrolled) :
    (σ.reachWork now none (.enroll w.txid w.identity fresh)).Alone := by
  have hs := he.accounted.coordinator
  obtain ⟨hset, hwait⟩ := hc.busy hq
  have hm := hc.manned w hw
  have hx : w.txid = σ.session.config.txid := hm.txid
  obtain ⟨T, hTx, hTid, ho, hscene⟩ := he.reachWork_enrolled hx ha
  have hnew : ({ σ.chapter with enrollments := σ.chapter.enrollments ++ [(fresh, some T)] } :
      Chapter).newest = some T := by simp [Chapter.newest]
  rw [hscene]
  constructor
  case had =>
    intro id hh
    exact Broker.had_act hs (h.had id hh) _
  case own =>
    intro id e hi hw hl hf
    exact Broker.passed_act hs (h.own id e hi hw hl hf) _
  case work =>
    intro id e _ hl
    cases hl
  case fatal =>
    intro hf
    obtain ⟨id, hi, hp⟩ := h.fatal hf
    exact ⟨id, hi, Broker.passed_act hs hp _⟩
  case sole =>
    intro id hh U hU hUx hUid
    obtain rfl : T = U := ho.unique hU (hTx.trans (hx.trans hUx.symm))
    exact ⟨hnew, hset⟩
  case one =>
    intro hcl e hmem
    rw [hnew]
    rcases List.mem_append.mp hmem with hmem | hmem
    · -- the transaction of the earlier enrollments is still open
      obtain ⟨T₀, hT₀, hx₀, hid₀, -⟩ := (he.manned w hw).own e hmem
      rw [hT₀]
      have hnewest : σ.chapter.newest = some T₀ := (h.one hcl e hmem).symm.trans hT₀
      rcases h.alive hcl T₀ hnewest with ho₀ | ⟨-, hp⟩ | hset' | ⟨⟨o, back, hw'⟩, -⟩
      · rw [ho₀.eq_of_act hs ho (hTx.trans hx₀.symm)]
      · rw [hx₀, hid₀] at hp
        obtain ⟨e', he'⟩ := (Broker.fences_of_passed hs hp).enroll now fresh
        rw [ha] at he'
        cases he'
      · exact absurd hset' hset
      · exact absurd hw' (hwait o back)
    · rw [List.mem_singleton.mp hmem]
  case alive =>
    intro _ U hU
    rw [hnew] at hU
    rw [← Option.some.inj hU]
    exact Or.inl ho
  case aborted =>
    intro hend
    exact absurd (Or.inl (hco.ready _ hend)) hset

/-- The broker answers the worker. -/
theorem Alone.reachWork (h : σ.Alone) (he : σ.Enlisted) (hc : σ.Coupled) (hco : σ.Concluded)
    {q : Request} (hq : σ.work = .sent q) (now : Span) : (σ.reachWork now none q).Alone := by
  have hs := he.accounted.coordinator
  obtain ⟨hset, hwait⟩ := hc.busy hq
  obtain ⟨w, hw, hm, hreq⟩ := hc.ordered hq
  have hheld : σ.Holds w.identity := Or.inl hm.identity
  have hx : w.txid = σ.session.config.txid := hm.txid
  have hunder : Broker.Under σ.session.config.txid w.identity q := by
    rcases hreq with ⟨_, _, _, -, rfl⟩ | ⟨_, _, _, -, rfl⟩ <;> exact ⟨hx, rfl⟩
  -- what opens no transaction changes nothing but the line
  have still : ∀ {line : Line} {chapter : Chapter},
      (∀ U, (σ.chronicle.act (.request now q)).Open U → σ.chronicle.Open U) →
      (∀ now' o, Broker.Op.request now q ≠
        .request now' (.finish σ.session.config.txid w.identity o)) →
      line = reply (σ.chronicle.broker.handle now q).2 none →
      chapter.enrollments = σ.chapter.enrollments →
      Alone { σ with
        chronicle := σ.chronicle.act (.request now q), work := line, chapter := chapter } := by
    rintro line chapter hop hfin rfl hen
    have hact : Alone { σ with chronicle := σ.chronicle.act (.request now q) } := by
      refine h.reach he (fun U _ _ => hop U) (fun T hT ho => ?_) (Or.inl rfl)
        (fun _ _ => Or.inl rfl) fun id e hi hw hl hf => ?_
      · obtain ⟨hTx, hid⟩ := he.newest_held hc hT
        refine (Chronicle.ended_without hs ho ?_).imp_right Or.inl
        rw [hTx, ← Option.some.inj (hm.identity.symm.trans hid)]
        exact hfin
      · exact Broker.passed_act hs (h.own id e hi hw hl hf) _
    refine hact.work_of hen fun id e hi hl hf => ?_
    obtain rfl := Option.some.inj (hm.identity.symm.trans hi)
    exact Broker.passed_of_fencing hs (h.had _ hheld) hunder (Line.replied.inj hl) hf
  rcases hreq with ⟨fresh, batches, barrier, hp, rfl⟩ | ⟨batch, rest, barrier, hp, rfl⟩
  · rcases fits_enroll (fits_handle σ.chronicle.broker now (.enroll w.txid w.identity fresh)) with
      ha | ⟨e, ha⟩
    · exact h.enroll he hc hco hw hq ha
    · rw [reachWork_refused ha]
      exact still (fun U => Chronicle.open_of_unenrolled hs ha) (by simp) (by rw [ha]; rfl) rfl
  · rcases fits_append (fits_handle σ.chronicle.broker now
      (.append w.txid w.identity batch.partition batch.records)) with ⟨base, ha⟩ | ⟨e, ha⟩
    · obtain ⟨T, -, -, -, hscene⟩ := reachWork_appended hx ha
      rw [hscene]
      exact still (fun U ho => Chronicle.open_of_open hs ho (by simp)) (by simp) (by rw [ha]; rfl) rfl
    · rw [reachWork_refused ha]
      exact still (fun U ho => Chronicle.open_of_open hs ho (by simp)) (by simp) (by rw [ha]; rfl) rfl

/-! ### The session moves -/

/-- Who waits for an end request is not where a session stands in a
transaction, or outside of one. -/
theorem Coupled.not_finish (hc : σ.Coupled)
    (hl : ∀ o, σ.session.stance.lifecycle ≠ Outcome.ending o) (o : Outcome) (back : Lifecycle) :
    σ.session.stance.wait ≠ .finish o back := fun hw => hl o (hc.ending hw)

/-- Who is not closed after an event was not closed before. -/
theorem Turned.not_closed {e : Event} (ht : σ.Turned e τ.session τ) (hc : σ.Coupled)
    (hcl : τ.session.stance.lifecycle ≠ .closed) : σ.session.stance.lifecycle ≠ .closed := by
  have hstride := ht.stride
  have hrunning := ht.coupled.running
  generalize τ.session.stance = v' at hstride hrunning hcl
  cases hstride with
  | quiet _ _ _ _ _ _ hl =>
    rcases hl with ⟨hl, -⟩ | ⟨-, hl⟩ | hl
    · rwa [hl] at hcl
    · simp [hl]
    · exact absurd hl hcl
  | sent s p hp _ _ hl => simp [hl]
  | begun w started hw hl => simp [hl]
  | acquired id inherited hl => simp [hl]
  | finishing o back _ _ hl _ hv' =>
    subst hv'
    obtain ⟨op, lc, -, hrun⟩ := hrunning (by simp)
    cases hrun with
    | finishing _ hb _ => rcases hb with rfl | rfl <;> simp [hl]
  | concluded o _ _ h =>
    rcases h with ⟨back, hw, -⟩ | ⟨-, hl, -⟩
    · rw [hc.ending hw]
      exact (ending_ne o).2
    · simp [hl]
  | refused o back err fatal _ _ hw =>
    rw [hc.ending hw]
    exact (ending_ne o).2

/-- A session that is closed stays so. -/
theorem Step.not_closed (hs : σ.Step a τ) (hc : σ.Coupled)
    (hcl : τ.session.stance.lifecycle ≠ .closed) : σ.session.stance.lifecycle ≠ .closed := by
  cases hs with
  | turn a e τ hcall hanswer ht => exact ht.not_closed hc hcl
  | moved a w w₀ w' barrier loads acked err q fatal started s' _ _ _ _ _ _ hv =>
    simp only [hv] at hcl
    exact hcl
  | stopped a w s' wait call' _ _ _ hv =>
    simp only [hv] at hcl
    exact hcl
  | _ => exact hcl

/-- The session goes on under its identity, with the enrollments that it has,
and nothing new is heard of the broker. -/
theorem Alone.goes (h : σ.Alone) (hchr : τ.chronicle = σ.chronicle)
    (hwork : ∀ answer, τ.work = .replied answer → σ.work = .replied answer)
    (hown : ∀ answer, τ.own = .replied answer → σ.own = .replied answer)
    (hwait : ∀ answer, τ.own = .replied answer →
      (∃ o back, τ.session.stance.wait = .finish o back) →
        ∃ o back, σ.session.stance.wait = .finish o back)
    (hcl : τ.session.stance.lifecycle ≠ .closed → σ.session.stance.lifecycle ≠ .closed)
    {v' : Stance} (hv : τ.session.stance = v') (hcfg : v'.config = σ.session.config)
    (hid : v'.identity = σ.session.stance.identity)
    (hen : τ.chapter.enrollments = σ.chapter.enrollments)
    (hfatal : v'.fatal = true → ∃ id, σ.session.stance.identity = some id ∧ σ.Superseded id)
    (hopen : ∀ U, σ.chapter.newest = some U → σ.chronicle.Open U →
      Settled v' → Settled σ.session.stance)
    (hset : v'.lifecycle ≠ .closed → Settled σ.session.stance → Settled v')
    (hfin : v'.lifecycle ≠ .closed → (∃ o back, σ.session.stance.wait = .finish o back) →
      σ.own = .replied (.ok .finished) →
        Settled v' ∨ ((∃ o back, v'.wait = .finish o back) ∧ τ.own = .replied (.ok .finished)))
    (haborted : Ended τ.call .abort → ∀ T, σ.chapter.newest = some T →
      σ.chronicle.ledger.ended T = some .abort) : τ.Alone := by
  subst hv
  have hnew : τ.chapter.newest = σ.chapter.newest := by rw [Chapter.newest, hen, Chapter.newest]
  have hcfg' : τ.session.config = σ.session.config := hcfg
  -- what the session holds now it has held before
  have held : ∀ id, τ.Holds id → σ.Holds id := by
    rintro id (hh | hh)
    · exact Or.inl (hid.symm.trans hh)
    · exact Or.inr (hown _ hh)
  constructor
  case had =>
    intro id hh
    rw [hchr, hcfg']
    exact h.had id (held id hh)
  case own =>
    intro id e hi hw hl hf
    rw [Superseded, hchr, hcfg']
    exact h.own id e (hid ▸ hi) (hwait _ hl hw) (hown _ hl) hf
  case work =>
    intro id e hi hl hf
    rw [Superseded, hchr, hcfg']
    exact h.work id e (hid ▸ hi) (hwork _ hl) hf
  case fatal =>
    intro hf
    rw [hid]
    simp only [Superseded, hchr, hcfg']
    exact hfatal hf
  case sole =>
    intro id hh U ho hx hi
    rw [hchr] at ho
    rw [hcfg'] at hx
    obtain ⟨hU, hno⟩ := h.sole id (held id hh) U ho hx hi
    rw [hnew]
    exact ⟨hU, fun hs => hno (hopen U hU ho hs)⟩
  case one =>
    intro hn e hmem
    rw [hnew]
    exact h.one (hcl hn) e (hen ▸ hmem)
  case alive =>
    intro hn T hT
    rw [hnew] at hT
    rw [hchr]
    rcases h.alive (hcl hn) T hT with ho | hp | hs | ⟨hw, hl⟩
    · exact Or.inl ho
    · exact Or.inr (Or.inl hp)
    · exact Or.inr (Or.inr (Or.inl (hset hn hs)))
    · exact Or.inr (Or.inr (hfin hn hw hl))
  case aborted =>
    intro hend T hT
    rw [hchr]
    exact haborted hend T (hnew ▸ hT)

/-- Nothing has been enrolled yet, and no transaction is open. -/
theorem Alone.fresh (h : σ.Alone) {e : Event} (ht : σ.Turned e τ.session τ)
    (hen : τ.chapter.enrollments = []) (hended : ¬ Ended τ.call .abort)
    (hcfg : τ.session.config = σ.session.config)
    (hid : ∀ id, τ.session.stance.identity = some id → σ.Holds id)
    (hwork : ∀ id e, τ.session.stance.identity = some id → σ.work = .replied (.error e) →
      e.isFencing = true → σ.Superseded id)
    (hfatal : τ.session.stance.fatal = true →
      ∃ id, τ.session.stance.identity = some id ∧ σ.Superseded id)
    (hnone : ∀ U, σ.Holds U.identity → U.txid = σ.session.config.txid → ¬ σ.chronicle.Open U) :
    τ.Alone := by
  have hchr := ht.chronicle
  have held : ∀ id, τ.Holds id → σ.Holds id := by
    rintro id (hh | hh)
    · exact hid id hh
    · exact absurd hh (ht.own _)
  constructor
  case had =>
    intro id hh
    rw [hchr, hcfg]
    exact h.had id (held id hh)
  case own =>
    intro id e _ _ hl
    exact absurd hl (ht.own _)
  case work =>
    intro id e hi hl hf
    rw [Superseded, hchr, hcfg]
    exact hwork id e hi (ht.work ▸ hl) hf
  case fatal =>
    intro hf
    simp only [Superseded, hchr, hcfg]
    exact hfatal hf
  case sole =>
    intro id hh U ho hx hi
    subst hi
    rw [hchr] at ho
    rw [hcfg] at hx
    exact absurd ho (hnone U (held _ hh) hx)
  case one =>
    intro _ e hmem
    rw [hen] at hmem
    cases hmem
  case alive =>
    intro _ T hT
    rw [Chapter.newest, hen] at hT
    cases hT
  case aborted =>
    intro hend
    exact absurd hend hended

/-- Where nothing happens to the transaction, the session is settled if it was. -/
theorem settled_quiet (hc : σ.Coupled) (hτ : τ.Coupled)
    (hw : ∀ o back, τ.session.stance.wait ≠ .finish o back)
    (hl : τ.session.stance.lifecycle = σ.session.stance.lifecycle ∨
      (τ.session.stance.lifecycle = .ready ∧ σ.session.stance.lifecycle = .ready) ∨
      τ.session.stance.lifecycle = .closed) :
    (Settled τ.session.stance → Settled σ.session.stance) ∧
      (τ.session.stance.lifecycle ≠ .closed →
        (Settled σ.session.stance → Settled τ.session.stance) ∧
          ∀ o back, σ.session.stance.wait ≠ .finish o back) := by
  have notfin : τ.session.stance.lifecycle ≠ .closed →
      ∀ o back, σ.session.stance.wait ≠ .finish o back := by
    intro hcl o back hw'
    have hend := hc.ending hw'
    rcases hl with hl | ⟨-, hl⟩ | hl
    · obtain ⟨o', back', h'⟩ := hτ.sane.ending o (hl.trans hend)
      exact hw o' back' h'
    · rw [hl] at hend
      cases o <;> cases hend
    · exact hcl hl
  refine ⟨?_, fun hcl => ⟨?_, notfin hcl⟩⟩
  · rintro (hset | ⟨o, hset⟩)
    · rcases hl with hl | ⟨-, hl⟩ | hl
      · exact Or.inl (hl ▸ hset)
      · exact Or.inl hl
      · rw [hl] at hset
        cases hset
    · exact absurd hset (hw o _)
  · rintro (hset | ⟨o, hset⟩)
    · rcases hl with hl | ⟨hl, -⟩ | hl
      · exact Or.inl (hl.trans hset)
      · exact Or.inl hl
      · exact absurd hl hcl
    · exact absurd hset (notfin hcl o _)

/-- After a terminal error the transaction was aborted. -/
theorem Alone.aborted_of_fatal (h : σ.Alone) (he : σ.Enlisted) (hc : σ.Coupled) {o : Outcome}
    (hr : σ.session.stance.Reached o) (hl : σ.session.stance.lifecycle = .inTransaction)
    (hf : σ.session.stance.fatal = true) {T : Txn} (hT : σ.chapter.newest = some T) :
    σ.chronicle.ledger.ended T = some .abort := by
  obtain ⟨hx, hid⟩ := he.newest_held hc hT
  obtain ⟨id, hi, hp⟩ := h.fatal hf
  obtain rfl := Option.some.inj (hid.symm.trans hi)
  rcases h.alive (by simp [hl]) T hT with ho | ⟨ho, -⟩ | (hs | ⟨o', hs⟩) | ⟨⟨o', back, hw⟩, -⟩
  · exact absurd ho (Chronicle.not_open_of_passed (by rw [hx]; exact hp))
  · exact ho
  · rw [hl] at hs
    cases hs
  · rw [hr.1] at hs
    cases hs
  · rw [hr.1] at hw
    cases hw

/-- An event of the session. -/
theorem Alone.turn (h : σ.Alone) (he : σ.Enlisted) (hco : σ.Concluded) (hc : σ.Coupled)
    (hτ : τ.Coupled) {e : Event} (hresume : ∀ op, e = .called op → op.resumed? = none)
    (hanswer : ∀ answer, e = .answered answer → σ.own = .replied answer)
    (ht : σ.Turned e τ.session τ) : τ.Alone := by
  have hstride := ht.stride
  generalize hv : τ.session.stance = v' at hstride
  have go := h.goes ht.chronicle (fun _ hl => ht.work ▸ hl) (fun _ hl => absurd hl (ht.own _))
    (fun _ hl => absurd hl (ht.own _)) (ht.not_closed hc) hv
  cases hstride with
  | quiet hk hchap hended hi hw hr hl =>
    obtain ⟨hback, hset⟩ := settled_quiet hc hτ (by rwa [hv]) (hl.imp (fun hl => by rw [hv, hl.1])
      (Or.imp (fun hl => by rwa [hv]) fun hl => by rw [hv, hl]))
    rw [hv] at hback hset
    refine go hk.config hk.identity (by rw [hchap]) (fun hf => h.fatal (hk.fatal ▸ hf))
      (fun _ _ _ => hback) (fun hcl => (hset hcl).1) ?_ fun hend => absurd hend (hended _)
    rintro hcl ⟨o, back, hw'⟩ -
    exact absurd hw' ((hset hcl).2 o back)
  | sent s p hp hchap hended hl hv' =>
    have notfin := hc.not_finish (fun o => by rw [hl]; cases o <;> simp [Outcome.ending])
    obtain ⟨hcfg, hid, hfat, hwait, hlc⟩ : v'.config = σ.session.config ∧
        v'.identity = σ.session.stance.identity ∧ v'.fatal = σ.session.stance.fatal ∧
        v'.wait = .nothing ∧ v'.lifecycle = .inTransaction := by
      rcases hv' with rfl | ⟨w, hw, hph, rfl⟩ <;> exact ⟨rfl, rfl, rfl, rfl, hl⟩
    refine go hcfg hid (by rw [hchap]) (fun hf => h.fatal (hfat ▸ hf)) ?_ ?_ ?_
      fun hend => absurd hend (hended _)
    · rintro U - - (hset | ⟨o, hset⟩)
      · rw [hlc] at hset
        cases hset
      · rw [hwait] at hset
        cases hset
    · rintro - (hset | ⟨o, hset⟩)
      · rw [hl] at hset
        cases hset
      · exact absurd hset (notfin o _)
    · rintro - ⟨o, back, hw'⟩ -
      exact absurd hw' (notfin o back)
  | begun w started hw hl hph hchap hended hv' =>
    subst hv'
    refine h.fresh ht (by rw [hchap]; rfl) (hended _) (congrArg Stance.config hv) ?_ ?_ ?_ ?_
    · intro id hi
      rw [hv] at hi
      exact Or.inl hi
    · rw [hv]
      exact h.work
    · rw [hv]
      exact h.fatal
    · intro U hh hx ho
      exact (h.sole _ hh U ho hx rfl).2 (Or.inl hl)
  | acquired id inherited hl hi hchap hended hv' =>
    subst hv'
    -- without a worker nothing has been enrolled
    have hnone := hc.fresh hl
    obtain ⟨hidentity, hidle⟩ := hc.unmanned hnone
    have hnil := (he.unmanned hnone).1
    refine h.fresh ht (by rw [hchap, hnil]) (hended _) (congrArg Stance.config hv) ?_ ?_ ?_ ?_
    · intro id' hid
      rw [hv] at hid
      obtain rfl := Option.some.inj hid
      -- the identity is the one that the broker has given out
      rcases hi with ⟨he, -⟩ | ⟨-, op, he, hr⟩
      · exact Or.inr (hanswer _ he)
      · rw [hresume op he] at hr
        cases hr
    · intro id' e _ hl' _
      rw [hidle] at hl'
      cases hl'
    · intro hf
      rw [hv] at hf
      obtain ⟨id', hid', -⟩ := h.fatal hf
      rw [hidentity] at hid'
      cases hid'
    · intro U hh hx ho
      have hU := (h.sole _ hh U ho hx rfl).1
      rw [Chapter.newest, hnil] at hU
      cases hU
  | finishing o back hchap hended hl hr hv' =>
    subst hv'
    have hback : back = .ready ∨ back = .inTransaction := by
      obtain ⟨op, lc, -, hrun⟩ := hτ.running (by simp [hv])
      rw [hv] at hrun
      cases hrun with
      | finishing _ hl _ => exact hl
    have notfin := hc.not_finish (fun o' => by
      rw [hl]
      rcases hback with rfl | rfl <;> cases o' <;> simp [Outcome.ending])
    refine go rfl rfl (by rw [hchap]) h.fatal ?_ ?_ ?_ fun hend => absurd hend (hended _)
    · rintro U - - (hset | ⟨o', hset⟩)
      · cases o <;> cases hset
      · obtain ⟨-, hb⟩ := Wait.finish.inj hset
        exact Or.inl (hl.trans hb)
    · rintro - (hset | ⟨o', hset⟩)
      · exact Or.inr ⟨o, by rw [← hl, hset]⟩
      · exact absurd hset (notfin o' _)
    · rintro - ⟨o', back', hw'⟩ -
      exact absurd hw' (notfin o' back')
  | concluded o hchap hended h' hv' =>
    subst hv'
    have hover : ∀ T, σ.chapter.newest = some T → σ.chronicle.ledger.ended T = some o := by
      intro T hT
      rcases h' with ⟨back, hw, ha⟩ | ⟨hr, hl, ⟨hf, rfl⟩ | ⟨-, -, hst⟩⟩
      · exact hco.finished _ back hw (hanswer _ ha) T hT
      · exact h.aborted_of_fatal he hc hr hl hf hT
      · rw [hco.newest_none hl hst] at hT
        cases hT
    refine go rfl rfl (by rw [hchap]) h.fatal ?_ (fun _ _ => Or.inl rfl)
      (fun _ _ _ => Or.inl (Or.inl rfl)) ?_
    · intro U hU ho _
      exact absurd ho (he.accounted.kept U o (hover U hU)).2
    · intro hend
      obtain rfl := hended _ hend
      exact hover
  | refused o back err fatal hchap hended hw ha hfat hv' =>
    subst hv'
    have hend := hc.ending hw
    refine go rfl rfl (by rw [hchap]) ?_ ?_ ?_ ?_ fun hend => absurd hend (hended _)
    · intro hf
      rcases hfat.mp hf with hf | ⟨hne, x, n, k, rfl⟩
      · exact h.fatal hf
      · obtain ⟨id, hi⟩ := Option.ne_none_iff_exists'.mp hne
        exact ⟨id, hi, h.own id _ hi ⟨o, back, hw⟩ (hanswer _ ha) rfl⟩
    · rintro U - - (hset | ⟨o', hset⟩)
      · exact Or.inr ⟨o, hw.trans (by rw [show back = _ from hset])⟩
      · cases hset
    · rintro - (hset | ⟨o', hset⟩)
      · rw [hend] at hset
        cases o <;> cases hset
      · obtain ⟨-, hb⟩ := Wait.finish.inj (hw.symm.trans hset)
        exact Or.inl hb
    · intro _ _ hl
      rw [hanswer _ ha] at hl
      cases hl

/-- **Every step keeps what is known of the session's transaction.** -/
theorem Alone.step (h : σ.Alone) (he : σ.Enlisted) (hco : σ.Concluded) (hc : σ.Coupled)
    (hτ : τ.Coupled) (hs : σ.Step a τ) (ha : σ.Exclusive a) : τ.Alone := by
  have hcl := hs.not_closed hc
  cases hs with
  | same => exact h
  | others op => exact h.others he hc ha
  | reachOwn now lost q hq =>
    obtain rfl : lost = none := ha
    exact h.reachOwn he hc hq now
  | reachWork now lost q hq =>
    obtain rfl : lost = none := ha
    exact h.reachWork he hc hco hq now
  | refuseOwn e q hq =>
    have hcalm : e.isFencing = false := BrokerError.not_isFencing_of_isRetriable ha
    have held : ∀ id, Holds { σ with own := .replied (.error e) } id → σ.Holds id := by
      rintro id (hh | hh)
      · exact Or.inl hh
      · cases hh
    constructor
    case had =>
      intro id hh
      exact h.had id (held id hh)
    case own =>
      intro id e' _ _ hl hf
      obtain rfl := Except.error.inj (Line.replied.inj hl)
      rw [hcalm] at hf
      cases hf
    case work => exact h.work
    case fatal => exact h.fatal
    case sole =>
      intro id hh
      exact h.sole id (held id hh)
    case one => exact h.one
    case alive =>
      intro hcl T hT
      rcases h.alive hcl T hT with ho | hp | hset | ⟨-, hl⟩
      · exact Or.inl ho
      · exact Or.inr (Or.inl hp)
      · exact Or.inr (Or.inr (Or.inl hset))
      · rw [hq] at hl
        cases hl
    case aborted => exact h.aborted
  | refuseWork e q hq =>
    have hcalm : e.isFencing = false := BrokerError.not_isFencing_of_isRetriable ha
    refine h.work_of rfl fun id e' _ hl hf => ?_
    obtain rfl := Except.error.inj (Line.replied.inj hl)
    rw [hcalm] at hf
    cases hf
  | turn a e τ hcall hanswer ht =>
    refine h.turn he hco hc hτ (fun op hev => ?_) hanswer ht
    rw [hcall _ hev] at ha
    cases op with
    | resume producer epoch => exact absurd rfl (ha.1 producer epoch)
    | resumeFrom token => exact absurd rfl (ha.2 token)
    | _ => rfl
  | moved a w w₀ w' barrier loads acked err q fatal started s' hw hsrc hn hfatal hst hen hv =>
    have hid := (hc.manned w hw).identity
    refine h.goes rfl (fun answer hl => ?_) (fun _ hl => hl) (fun _ _ hw => ?_) hcl hv
      rfl rfl rfl (fun hf => ?_) (fun _ _ _ hs => hs) (fun _ hs => hs)
      (fun _ hw hl => Or.inr ⟨hw, hl⟩) h.aborted
    · cases q <;> cases hl
    · simp only [hv] at hw
      exact hw
    · -- a refusal that fences has been heard, or nothing has changed
      rcases hfatal.mp hf with hf | ⟨e, rfl, hf⟩
      · exact h.fatal hf
      · cases hsrc with
        | refused loads e hi hs hl hloads => exact ⟨_, hid, h.work _ e hid hl hf⟩
  | stopped a w s' wait call' hw hwait hcall hv =>
    -- who waits for an end request goes on waiting
    have hfin : ∀ o back, σ.session.stance.wait = .finish o back ↔ wait = .finish o back := by
      intro o back
      rcases hwait with rfl | rfl
      · exact Iff.rfl
      · refine ⟨fun hw' => ?_, fun hw' => nomatch hw'⟩
        obtain ⟨o', back', hn⟩ := hτ.sane.ending o (by simp only [hv]; exact hc.ending hw')
        simp only [hv] at hn
        cases hn
    have hwaits : (∃ o back, σ.session.stance.wait = .finish o back) ↔
        ∃ o back, wait = .finish o back := exists_congr fun o => exists_congr (hfin o)
    have hset : Settled σ.session.stance ↔ σ.session.stance.lifecycle = .ready ∨
        ∃ o, wait = .finish o .ready := or_congr_right (exists_congr fun o => hfin o _)
    refine h.goes rfl (fun _ hl => nomatch hl) (fun _ hl => hl) (fun _ _ hw => ?_) hcl hv
      rfl rfl rfl h.fatal (fun _ _ _ hs => hset.mpr hs) (fun _ hs => hset.mp hs)
      (fun _ hw hl => Or.inr ⟨hwaits.mp hw, hl⟩) fun hend => h.aborted (hcall _ hend)
    simp only [hv] at hw
    exact hwaits.mpr hw

end Scene
end FencedLog
