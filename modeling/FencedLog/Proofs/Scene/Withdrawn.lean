/-
# What a session has aborted

Others that have resumed a session's identity may end its transaction, and a
newer instance may take over. The session then hears, when it asks for the end
itself, that its identity has been superseded, and takes its transaction for
aborted from there on: a further call to abort succeeds and makes no request.
But it may have been committed before (`withdrawn_committed`).

A call to abort that succeeds leaves every acknowledged record decided. Where
no terminal error is known the transaction that was enrolled in last is
aborted. A record is committed nevertheless only if the identity has been
superseded, or if it lies in an earlier transaction (`withdrawn`).

Key definitions: `Scene.Handed`, `Scene.Alerted`, `Scene.Guarded`,
`Scene.Withdrawn`.
Key theorems: `Scene.Guarded.step`, `Reaches.guarded`, `Scene.withdrawn`,
`Scene.withdrawn_committed`.
-/
import FencedLog.Proofs.Scene.Exact
import FencedLog.Proofs.Scene.Sealed

namespace FencedLog
namespace Scene

open Stance

variable {σ τ : Scene} {a : Act}

/-- What may happen to a session that has handed its identity over, when every
answer is heard: others finish what it has begun, take over and let it expire,
but do not write for it, and no topic is deleted. -/
def Handed (σ : Scene) : Act → Prop
  | .others op => (∀ topic, op ≠ .deleteTopic topic) ∧ ¬ σ.Writes op
  | .reach _ _ lost => lost = none
  | .refuse _ e => e.isRetriable = true
  | _ => True

theorem Handed.fair (h : σ.Handed a) : σ.Fair a := by
  cases a with
  | others op => exact h.2
  | _ => trivial

/-- The session's identity has been superseded. -/
def Overtaken (σ : Scene) : Prop := ∀ id, σ.session.stance.identity = some id → σ.Superseded id

/-- Whenever the session hears that its identity has been superseded, it has
been. -/
structure Alerted (σ : Scene) : Prop where
  had : ∀ id, σ.session.stance.identity = some id →
    σ.chronicle.broker.coordinator.Had σ.session.config.txid id
  own : σ.session.stance.Finishing → σ.own.Fences → σ.Overtaken
  work : σ.work.Fences → σ.Overtaken
  fatal : σ.session.stance.fatal = true → σ.Overtaken

/-- What is known of the transactions in which a session has enrolled. -/
structure Guarded (σ : Scene) : Prop where
  /-- An identity that was resumed may never have been given out, but then
  nothing is enrolled under it. -/
  alerted : σ.chapter.enrollments ≠ [] → σ.Alerted
  lies : ∀ x ∈ σ.chapter.writs, ∃ T, x.txn = some T ∧ σ.chronicle.Has T x.place
  earlier : ∀ e ∈ σ.chapter.enrollments, ∀ T, e.2 = some T →
    σ.chapter.newest = some T ∨ ∃ o, σ.chronicle.ledger.ended T = some o
  aborted : Ended σ.call .abort → σ.session.stance.fatal = false →
    ∀ T, σ.chapter.newest = some T → σ.chronicle.ledger.ended T = some .abort

theorem guarded_start (broker : BrokerConfig) (config : SessionConfig) :
    (start broker config).Guarded where
  alerted := fun h => absurd rfl h
  lies := fun _ h => nomatch h
  earlier := fun _ h => nomatch h
  aborted := fun ⟨_, h⟩ => nomatch h

/-! ### The broker acts -/

theorem Overtaken.act (h : σ.Overtaken) (hs : σ.chronicle.broker.coordinator.Sound)
    (op : Broker.Op) : Overtaken { σ with chronicle := σ.chronicle.act op } :=
  fun id hid => Broker.passed_act hs (h id hid) op

theorem Alerted.act (h : σ.Alerted) (hs : σ.chronicle.broker.coordinator.Sound)
    (op : Broker.Op) : Alerted { σ with chronicle := σ.chronicle.act op } where
  had := fun id hid => Broker.had_act hs (h.had id hid) op
  own := fun hw hl => (h.own hw hl).act hs op
  work := fun hl => (h.work hl).act hs op
  fatal := fun hf => (h.fatal hf).act hs op

/-- Whoever does something to the broker, short of deleting a topic. -/
theorem Guarded.act (h : σ.Guarded) (ha : σ.chronicle.Accounted) {op : Broker.Op}
    (hd : ∀ topic, op ≠ .deleteTopic topic) :
    Guarded { σ with chronicle := σ.chronicle.act op } where
  alerted := fun hne => (h.alerted hne).act ha.coordinator op
  lies := fun x hx => by
    obtain ⟨T, hT, hhas⟩ := h.lies x hx
    exact ⟨T, hT, Chronicle.has_act ha hhas (hd _)⟩
  earlier := fun e he T hT => (h.earlier e he T hT).imp_right fun ⟨o, ho⟩ =>
    ⟨o, Chronicle.ended_stable ha.kept ho op⟩
  aborted := fun hend hf T hT => Chronicle.ended_stable ha.kept (h.aborted hend hf T hT) op

/-- Something else is on the session's line. -/
theorem Guarded.on_own (h : σ.Guarded) {line : Line} (hl : σ.chapter.enrollments ≠ [] →
      σ.session.stance.Finishing → line.Fences → σ.Overtaken) : Guarded { σ with own := line } where
  alerted := fun hne => by
    obtain ⟨hhad, -, hwork, hfatal⟩ := h.alerted hne
    exact ⟨hhad, hl hne, hwork, hfatal⟩
  lies := h.lies
  earlier := h.earlier
  aborted := h.aborted

/-- Something else is on the worker's line. -/
theorem Guarded.on_work (h : σ.Guarded) {line : Line} (hl : σ.chapter.enrollments ≠ [] →
      line.Fences → σ.Overtaken) : Guarded { σ with work := line } where
  alerted := fun hne => by
    obtain ⟨hhad, hown, -, hfatal⟩ := h.alerted hne
    exact ⟨hhad, hown, hl hne, hfatal⟩
  lies := h.lies
  earlier := h.earlier
  aborted := h.aborted

/-- A refusal that fences the session's identity is right. -/
theorem Alerted.refused (h : σ.Alerted) (hs : σ.chronicle.broker.coordinator.Sound) {now : Span}
    {q : Request} (hq : ∀ id, σ.session.stance.identity = some id →
      Broker.Under σ.session.config.txid id q)
    (hl : (Line.replied (σ.chronicle.broker.handle now q).2).Fences) :
    Overtaken { σ with chronicle := σ.chronicle.act (.request now q) } := fun id hid => by
  obtain ⟨e, he, hfence⟩ := hl
  exact Broker.passed_of_fencing hs (h.had id hid) (hq id hid) (Line.replied.inj he) hfence

/-- The broker answers the session. -/
theorem Guarded.reachOwn (h : σ.Guarded) (he : σ.Enlisted) (hc : σ.Coupled) {q : Request}
    (hq : σ.own = .sent q) (now : Span) : (σ.reachOwn now none q).Guarded := by
  have hact : Guarded { σ with chronicle := σ.chronicle.act (.request now q) } :=
    h.act he.accounted (by simp)
  refine hact.on_own fun hne ⟨o, back, hw⟩ hl => ?_
  obtain ⟨id, hid, rfl⟩ := hc.asked_end hq hw
  refine (h.alerted hne).refused he.accounted.coordinator (fun id' hid' => ?_) hl
  exact ⟨rfl, Option.some.inj (hid.symm.trans hid')⟩

/-- The worker enrolls partitions: in the transaction of the last enrollment, or
in a new one after that one has ended. -/
theorem Guarded.enroll (h : σ.Guarded) (hsi : σ.Silent) (he : σ.Enlisted) (hc : σ.Coupled)
    (hco : σ.Concluded) {w : Worker} (hw : σ.session.stance.worker = some w)
    {fresh : List TopicPartition} (hq : σ.work = .sent (.enroll w.txid w.identity fresh))
    {now : Span}
    (hok : (σ.chronicle.broker.handle now (.enroll w.txid w.identity fresh)).2 = .ok .enrolled) :
    (σ.reachWork now none (.enroll w.txid w.identity fresh)).Guarded := by
  have hm := hc.manned w hw
  have hx : w.txid = σ.session.config.txid := hm.txid
  obtain ⟨hset, hfin⟩ := hc.busy hq
  obtain ⟨T, hTx, hTid, ho, hscene⟩ := he.reachWork_enrolled hx hok
  have hact : Guarded { σ with
      chronicle := σ.chronicle.act (.request now (.enroll w.txid w.identity fresh)) } :=
    h.act he.accounted (by simp)
  have haccounted := Chronicle.accounted_act he.accounted
    (.request now (.enroll w.txid w.identity fresh))
  have hnew : ({ σ.chapter with enrollments := σ.chapter.enrollments ++ [(fresh, some T)] } :
      Chapter).newest = some T := by simp [Chapter.newest]
  rw [hscene]
  constructor
  case alerted =>
    -- the identity has just been the current one, and nothing is known against it
    intro _
    constructor
    case had =>
      intro id hid
      obtain ⟨t, hd, -, ht⟩ := (Chronicle.open_iff.mp ho).1
      have hidentity : w.identity = id := Option.some.inj (hm.identity.symm.trans hid)
      have hhad := haccounted.coordinator.had hd
      rwa [ht, hTx.trans hx, hTid.trans hidentity] at hhad
    case own =>
      rintro ⟨o, back, hwait⟩
      exact absurd hwait (hfin o back)
    case work =>
      rintro ⟨e, hl, -⟩
      cases hl
    case fatal => exact fun hf => absurd hq (hsi hf _)
  case lies => exact hact.lies
  case earlier =>
    intro e hmem U hU
    rw [hnew]
    rcases List.mem_append.mp hmem with hmem | hmem
    · obtain ⟨U', hU', hx', -, hb⟩ := (he.manned w hw).own_act he.accounted.kept _ e hmem
      obtain rfl := Option.some.inj (hU'.symm.trans hU)
      exact hb.imp_left fun ho' => congrArg some (ho.unique ho' (hTx.trans hx'.symm))
    · rw [List.mem_singleton.mp hmem] at hU
      exact Or.inl hU
  case aborted =>
    intro hend
    exact absurd (Or.inl (hco.ready _ hend)) hset

/-- The worker appends to a partition. -/
theorem Guarded.append (h : σ.Guarded) (he : σ.Enlisted) {w : Worker}
    (hx : w.txid = σ.session.config.txid) {p : TopicPartition} {records : List Record} {now : Span}
    {base : Nat}
    (hok : (σ.chronicle.broker.handle now (.append w.txid w.identity p records)).2 =
      .ok (.appended base)) :
    (σ.reachWork now none (.append w.txid w.identity p records)).Guarded := by
  obtain ⟨T, hTx, hTid, ho, hscene⟩ := reachWork_appended hx hok
  rw [hscene]
  have hact : Guarded { σ with
      chronicle := σ.chronicle.act (.request now (.append w.txid w.identity p records))
      work := .replied (.ok (.appended base)) } :=
    (h.act he.accounted (by simp)).on_work fun _ ⟨e, hl, _⟩ => nomatch hl
  obtain ⟨halerted, hlies, hearlier, haborted⟩ := hact
  refine ⟨fun hne => ?_, fun x hmem => ?_, hearlier, haborted⟩
  · exact ⟨(halerted hne).had, (halerted hne).own, (halerted hne).work, (halerted hne).fatal⟩
  · rcases List.mem_append.mp hmem with hmem | hmem
    · exact hlies x hmem
    · obtain ⟨j, r, hj, rfl⟩ := mem_written_iff.mp hmem
      rw [← hTx, ← hTid] at hok ⊢
      exact ⟨T, rfl, (Chronicle.has_append he.accounted ho hok).1 j r hj⟩

/-- The broker answers the worker. -/
theorem Guarded.reachWork (h : σ.Guarded) (hsi : σ.Silent) (he : σ.Enlisted) (hc : σ.Coupled)
    (hco : σ.Concluded) {q : Request} (hq : σ.work = .sent q) (now : Span) :
    (σ.reachWork now none q).Guarded := by
  obtain ⟨w, hw, hm, hreq⟩ := hc.ordered hq
  have hx : w.txid = σ.session.config.txid := hm.txid
  have refused : ∀ e, (σ.chronicle.broker.handle now q).2 = .error e →
      (∀ id, σ.session.stance.identity = some id → Broker.Under σ.session.config.txid id q) →
        (σ.reachWork now none q).Guarded := by
    intro e hno hunder
    rw [reachWork_refused hno]
    refine (h.act he.accounted (by simp)).on_work fun hne hl => ?_
    exact (h.alerted hne).refused he.accounted.coordinator hunder (hno ▸ hl)
  have held : ∀ id, σ.session.stance.identity = some id → w.identity = id := fun id hid =>
    Option.some.inj (hm.identity.symm.trans hid)
  rcases hreq with ⟨fresh, batches, barrier, hp, rfl⟩ | ⟨batch, rest, barrier, hp, rfl⟩
  · rcases fits_enroll (fits_handle σ.chronicle.broker now (.enroll w.txid w.identity fresh)) with
      hok | ⟨e, hno⟩
    · exact h.enroll hsi he hc hco hw hq hok
    · exact refused e hno fun id hid => ⟨hx, held id hid⟩
  · rcases fits_append (fits_handle σ.chronicle.broker now
      (.append w.txid w.identity batch.partition batch.records)) with ⟨base, hok⟩ | ⟨e, hno⟩
    · exact h.append he hx hok
    · exact refused e hno fun id hid => ⟨hx, held id hid⟩

/-! ### The session and its worker -/

/-- The session goes on in its chapter, under the identity that it has. -/
theorem Guarded.goes (h : σ.Guarded) (hchr : τ.chronicle = σ.chronicle)
    (hcfg : τ.session.stance.config = σ.session.stance.config)
    (hid : τ.session.stance.identity = σ.session.stance.identity)
    (hen : τ.chapter.enrollments = σ.chapter.enrollments)
    (hwr : τ.chapter.writs = σ.chapter.writs)
    (hown : τ.session.stance.Finishing → τ.own.Fences →
      σ.session.stance.Finishing ∧ σ.own.Fences)
    (hwork : τ.work.Fences → σ.work.Fences)
    (hfatal : τ.session.stance.fatal = true → σ.session.stance.fatal = true ∨
      (σ.session.stance.Finishing ∧ σ.own.Fences) ∨ σ.work.Fences)
    (habort : Ended τ.call .abort → τ.session.stance.fatal = false →
      ∀ T, σ.chapter.newest = some T → σ.chronicle.ledger.ended T = some .abort) :
    τ.Guarded := by
  have hnew : τ.chapter.newest = σ.chapter.newest := by rw [Chapter.newest, hen, Chapter.newest]
  replace hcfg : τ.session.config = σ.session.config := hcfg
  have hover : σ.Overtaken → τ.Overtaken := fun ho id hid' => by
    rw [Superseded, hchr, hcfg]
    exact ho id (hid ▸ hid')
  refine ⟨fun hne => ?_, ?_, ?_, ?_⟩
  · have hal := h.alerted (hen ▸ hne)
    refine ⟨fun id hid' => ?_, fun hw hl => ?_, fun hl => hover (hal.work (hwork hl)), fun hf => ?_⟩
    · rw [hchr, hcfg]
      exact hal.had id (hid ▸ hid')
    · obtain ⟨hw, hl⟩ := hown hw hl
      exact hover (hal.own hw hl)
    · rcases hfatal hf with hf | ⟨hw, hl⟩ | hl
      · exact hover (hal.fatal hf)
      · exact hover (hal.own hw hl)
      · exact hover (hal.work hl)
  · rw [hwr, hchr]
    exact h.lies
  · rw [hen, hnew, hchr]
    exact h.earlier
  · rw [hnew, hchr]
    exact habort

/-- An event of the session. -/
theorem Guarded.turn (h : σ.Guarded) (he : σ.Enlisted) (hc : σ.Coupled) (hco : σ.Concluded)
    {e : Event} (hanswer : ∀ answer, e = .answered answer → σ.own = .replied answer)
    (ht : σ.Turned e τ.session τ) : τ.Guarded := by
  have hstride := ht.stride
  have unheard : ¬ τ.own.Fences := fun ⟨e, hl, _⟩ => ht.own _ hl
  have go := h.goes ht.chronicle
  generalize hv : τ.session.stance = v' at hstride go
  have hfatal : v'.fatal = true →
      σ.session.stance.fatal = true ∨ (σ.session.stance.Finishing ∧ σ.own.Fences) := fun hf =>
    (hstride.fatal hf).imp_right fun ⟨hfin, _, err, heq, hfence⟩ =>
      ⟨hfin, err, hanswer _ heq, hfence⟩
  -- who has neither begun a transaction nor taken an identity goes on
  have on : τ.chapter.enrollments = σ.chapter.enrollments → τ.chapter.writs = σ.chapter.writs →
      v'.config = σ.session.stance.config → v'.identity = σ.session.stance.identity →
      (Ended τ.call .abort → v'.fatal = false →
        ∀ T, σ.chapter.newest = some T → σ.chronicle.ledger.ended T = some .abort) → τ.Guarded :=
    fun hen hwr hcfg hid habort => go hcfg hid hen hwr (fun _ hl => absurd hl unheard)
      (fun hl => ht.work ▸ hl) (fun hf => (hfatal hf).imp_right Or.inl) habort
  cases hstride with
  | quiet hk hchap hended =>
    exact on (by rw [hchap]) (by rw [hchap]) hk.config hk.identity fun ho => absurd ho (hended _)
  | sent s p hp hchap hended hl hv' =>
    rcases hv' with rfl | ⟨w, hw, hph, rfl⟩ <;>
      exact on (by rw [hchap]) (by rw [hchap]) rfl rfl fun ho => absurd ho (hended _)
  | begun w started hw hl hph hchap hended hv' =>
    refine ⟨fun hne => ?_, fun x hx => ?_, fun e he => ?_, fun ho => absurd ho (hended _)⟩
    · rw [hchap] at hne
      exact absurd rfl hne
    · rw [hchap] at hx
      cases hx
    · rw [hchap] at he
      cases he
  | acquired id inherited hl hi hchap hended hv' =>
    obtain ⟨hen, hwr⟩ := he.unmanned (hc.fresh hl)
    refine ⟨fun hne => ?_, fun x hx => ?_, fun e he => ?_, fun ho => absurd ho (hended _)⟩
    · rw [hchap] at hne
      exact absurd hen hne
    · rw [hchap, hwr] at hx
      cases hx
    · rw [hchap, hen] at he
      cases he
  | finishing o back hchap hended hl hr hv' =>
    subst hv'
    exact on (by rw [hchap]) (by rw [hchap]) rfl rfl fun ho => absurd ho (hended _)
  | concluded o hchap hended h' hv' =>
    subst hv'
    refine on (by rw [hchap]) (by rw [hchap]) rfl rfl fun ho hf T hT => ?_
    obtain rfl := hended _ ho
    rcases h' with ⟨back, hw, ha⟩ | ⟨-, hl, ⟨hf', -⟩ | ⟨-, -, hst⟩⟩
    · exact hco.finished _ back hw (hanswer _ ha) T hT
    · cases hf.symm.trans hf'
    · rw [hco.newest_none hl hst] at hT
      cases hT
  | refused o back err fatal hchap hended hw ha hfat hv' =>
    subst hv'
    exact on (by rw [hchap]) (by rw [hchap]) rfl rfl fun ho => absurd ho (hended _)

/-- **Every step keeps what is known of the transactions in which the session
has enrolled.** -/
theorem Guarded.step (h : σ.Guarded) (hsi : σ.Silent) (he : σ.Enlisted) (hco : σ.Concluded)
    (hc : σ.Coupled) (hs : σ.Step a τ) (ha : σ.Handed a) : τ.Guarded := by
  cases hs with
  | same => exact h
  | others op => exact h.act he.accounted ha.1
  | reachOwn now lost q hq =>
    obtain rfl : lost = none := ha
    exact h.reachOwn he hc hq now
  | reachWork now lost q hq =>
    obtain rfl : lost = none := ha
    exact h.reachWork hsi he hc hco hq now
  | refuseOwn e q hq => exact h.on_own fun _ _ hl => absurd hl (not_fences_of_retriable ha)
  | refuseWork e q hq => exact h.on_work fun _ hl => absurd hl (not_fences_of_retriable ha)
  | turn a e τ hcall hanswer ht => exact h.turn he hc hco hanswer ht
  | moved a w w₀ w' barrier loads acked err q fatal started s' hw hsrc hn hfatal hst hen hv =>
    refine h.goes rfl (by rw [hv]) (by rw [hv]) rfl rfl (fun hw hl => ?_) (fun hl => ?_) (fun hf => ?_)
      fun hend hf => ?_
    · rw [hv] at hw
      exact ⟨hw, hl⟩
    · obtain ⟨e, hl, -⟩ := hl
      cases q <;> cases hl
    · rw [hv] at hf
      refine (hfatal.mp hf).imp_right ?_
      rintro ⟨e, rfl, hfence⟩
      cases hsrc with
      | refused loads _ hi hstop hl _ => exact Or.inr ⟨e, hl, hfence⟩
    · rw [hv] at hf
      have hcalm : σ.session.stance.fatal = false :=
        Bool.eq_false_iff.mpr fun hf' => Bool.eq_false_iff.mp hf (hfatal.mpr (Or.inl hf'))
      exact h.aborted hend hcalm
  | stopped a w s' wait call' hw hwait hcall hv =>
    refine h.goes rfl (by rw [hv]) (by rw [hv]) rfl rfl (fun hf hl => ?_) (fun ⟨e, hl, _⟩ => nomatch hl)
      (fun hf => ?_) fun hend hf => ?_
    · rw [hv] at hf
      obtain ⟨o, back, rfl⟩ := hf
      exact ⟨⟨o, back, (hwait.resolve_right (by simp)).symm⟩, hl⟩
    · rw [hv] at hf
      exact Or.inl hf
    · rw [hv] at hf
      exact h.aborted (hcall _ hend) hf

end Scene

/-! ### Every scene -/

/-- What holds of every scene in which the identity may have been handed over. -/
theorem Reaches.guarded {broker : BrokerConfig} {config : SessionConfig} {σ : Scene}
    (h : Reaches Scene.Handed (.start broker config) σ) : σ.Faithful ∧ σ.Silent ∧ σ.Guarded := by
  have hstart : (Scene.start broker config).Faithful ∧ (Scene.start broker config).Silent ∧
      (Scene.start broker config).Guarded :=
    ⟨Scene.faithful_start .., Scene.silent_start broker config, Scene.guarded_start ..⟩
  refine h.keeps (P := fun ρ => ρ.Faithful ∧ ρ.Silent ∧ ρ.Guarded) hstart
    fun ρ a ⟨hf, hsi, hg⟩ ha => ?_
  obtain ⟨hstep, hc⟩ := hf.coupled.act a
  exact ⟨hf.act ha.fair, hsi.step hf.coupled hstep,
    hg.step hsi hf.enlisted hf.concluded hf.coupled hstep ha⟩

namespace Scene

/-- What has become of the acknowledged records of a scene's chapter, once a
call to abort has succeeded. -/
structure Withdrawn (σ : Scene) (xs : List Writ) : Prop where
  vouched : σ.chapter.Vouched xs
  /-- A record is in a transaction of the session's identity that has ended, and
  is decided as that one ended. -/
  ended : ∀ x ∈ xs, ∃ T o, x.txn = some T ∧ T.txid = σ.session.config.txid ∧
    σ.session.identity = some T.identity ∧ σ.chronicle.ledger.ended T = some o ∧
    σ.chronicle.Decided x.place o
  /-- The transaction that was enrolled in last is aborted, unless a terminal
  error is known. -/
  aborted : σ.session.shared.fatal = none → ∀ x ∈ xs, x.txn = σ.chapter.newest →
    σ.chronicle.Decided x.place .abort
  /-- A record that is committed belongs to an identity that has been superseded,
  or to an earlier transaction than the one that is aborted. -/
  kept : ∀ x ∈ xs, ∀ T, x.txn = some T → σ.chronicle.ledger.ended T = some .commit →
    (σ.session.shared.fatal ≠ none ∧ σ.Superseded T.identity) ∨
      ∃ U, σ.chapter.newest = some U ∧ U ≠ T ∧ σ.chronicle.ledger.ended U = some .abort

/-- Once a call to abort has succeeded every transaction has ended in which the
session has enrolled. -/
theorem Guarded.ended {σ : Scene} (h : σ.Guarded) (he : σ.Enlisted) (hc : σ.Coupled)
    (hend : Ended σ.call .abort) {e : List TopicPartition × Option Txn}
    (hmem : e ∈ σ.chapter.enrollments) {T : Txn} (hT : e.2 = some T) : ∃ o, σ.chronicle.ledger.ended T = some o := by
  cases hf : σ.session.stance.fatal with
  | false =>
    rcases h.earlier e hmem T hT with hnew | hover
    · exact ⟨.abort, h.aborted hend hf T hnew⟩
    · exact hover
  | true =>
    -- of an identity that has been superseded no transaction is open
    cases hw : σ.session.stance.worker with
    | none =>
      rw [(he.unmanned hw).1] at hmem
      cases hmem
    | some w =>
      obtain ⟨T', hT', hx, hid, hb⟩ := (he.manned w hw).own e hmem
      obtain rfl := Option.some.inj (hT'.symm.trans hT)
      have hm := hc.manned w hw
      have hover := (h.alerted (List.ne_nil_of_mem hmem)).fatal hf T'.identity (hid ▸ hm.identity)
      rw [Superseded, ← show T'.txid = σ.session.config.txid from hx.trans hm.txid] at hover
      exact hb.resolve_left (Chronicle.not_open_of_passed hover)

/-- **After a call to abort that succeeds every acknowledged record is decided,
and none is committed unless the identity has been superseded or the record
lies in an earlier transaction.** -/
theorem withdrawn {broker : BrokerConfig} {config : SessionConfig} {σ : Scene}
    (h : Reaches Handed (start broker config) σ) (hend : Ended σ.call .abort) :
    ∃ xs, σ.Withdrawn xs := by
  obtain ⟨hf, -, hg⟩ := h.guarded
  have haccounted := hf.enlisted.accounted
  obtain ⟨done, hdone⟩ := hf.delivered
  obtain ⟨xs, hxs⟩ := hdone.vouched
  have hcalm : σ.session.shared.fatal = none → σ.session.stance.fatal = false := fun hn => by
    simp [Session.stance, hn]
  -- a record lies in an enrolled transaction, and that one has ended
  have own : ∀ x ∈ xs, ∃ T e, x.txn = some T ∧ e ∈ σ.chapter.enrollments ∧ e.2 = some T ∧
      T.txid = σ.session.config.txid ∧ σ.session.identity = some T.identity ∧
      σ.chronicle.Has T x.place := fun x hx => by
    have hmem := hxs.writs.subset hx
    obtain ⟨T, hT, hin, htxid, hid, -⟩ := hf.own hmem
    obtain ⟨T', hT', hhas⟩ := hg.lies x hmem
    obtain rfl := Option.some.inj (hT.symm.trans hT')
    obtain ⟨e, he, heT⟩ := Chapter.enrolledIn_mem hin
    exact ⟨T, e, hT, he, heT, htxid, hid, hhas⟩
  refine ⟨xs, hxs, fun x hx => ?_, fun hn x hx hnew => ?_, fun x hx T hT hcommit => ?_⟩
  · obtain ⟨T, e, hT, he, heT, htxid, hid, hhas⟩ := own x hx
    obtain ⟨o, ho⟩ := hg.ended hf.enlisted hf.coupled hend he heT
    exact ⟨T, o, hT, htxid, hid, ho, hhas.decided haccounted ho⟩
  · obtain ⟨T, e, hT, -, -, -, -, hhas⟩ := own x hx
    exact hhas.decided haccounted (hg.aborted hend (hcalm hn) T (hnew.symm.trans hT))
  · obtain ⟨T', e, hT', he, heT, htxid, hid, hhas⟩ := own x hx
    obtain rfl := Option.some.inj (hT'.symm.trans hT)
    by_cases hn : σ.session.shared.fatal = none
    · obtain ⟨U, hU⟩ := hf.newest (hxs.writs.subset hx)
      have habort := hg.aborted hend (hcalm hn) U hU
      refine Or.inr ⟨U, hU, ?_, habort⟩
      rintro rfl
      cases hcommit.symm.trans habort
    · have hfatal : σ.session.stance.fatal = true := by
        simpa [Session.stance, Option.isSome_iff_ne_none] using hn
      exact Or.inl ⟨hn, (hg.alerted (List.ne_nil_of_mem he)).fatal hfatal _ hid⟩

/-! ### A commit is taken for an abort -/

/-- A session's record is acknowledged, somebody who has resumed its identity
ends the transaction, a newer instance takes over, and the session asks to
abort. -/
def endedMeanwhile (o : Outcome) : List Act := [
  .others (.createTopic "T" 1),
  .call .init, .reach .own .zero none, .hear .own,
  .call .begin, .round 1,
  .call (.send (draftFor 0) ⟨0, .future⟩ 0), .reach .own .zero none, .hear .own,
  .round 1, .reach .work .zero none, .hear .work, .reach .work .zero none, .hear .work,
  .others (.request .zero (.finish "tx" ⟨1000, 0⟩ o)),
  .others (.request .zero (.init "tx" .zero)),
  .call (.finish .abort), .round 1, .wake, .reach .own .zero none, .hear .own]

/-- The session asks again. -/
def abortedAgain : List Act := [.call (.finish .abort), .round 1, .wake]

theorem admits_endedMeanwhile (o : Outcome) :
    (start .default settings).Admits Handed (endedMeanwhile o) := by
  simp [endedMeanwhile, Admits, Handed, Writes]

theorem withdrawn_abortedMeanwhile :
    Reaches Handed (start .default settings) ((start .default settings).run (endedMeanwhile .abort)) ∧
      Ended ((start .default settings).run (endedMeanwhile .abort)).call .abort ∧
      ∃ xs, ((start .default settings).run (endedMeanwhile .abort)).Withdrawn xs := by
  have hreach := Reaches.refl.run (admits_endedMeanwhile .abort)
  have hend : Ended ((start .default settings).run (endedMeanwhile .abort)).call .abort := ⟨_, rfl⟩
  exact ⟨hreach, hend, withdrawn hreach hend⟩

/-- **A call to abort succeeds, and the record that was acknowledged is
committed.** -/
theorem withdrawn_committed : ∃ σ, Reaches Handed (start .default settings) σ ∧
    Ended σ.call .abort ∧ ∃ x T, σ.chapter.writs = [x] ∧ σ.chapter.Vouched [x] ∧ x.txn = some T ∧
      σ.chronicle.ledger.ended T = some .commit ∧ σ.chronicle.Decided x.place .commit := by
  have hreach := Reaches.refl.run (admits_endedMeanwhile .commit)
  have hagain : ((start .default settings).run (endedMeanwhile .commit)).Admits Handed abortedAgain :=
    by simp [abortedAgain, Admits, Handed]
  refine ⟨_, hreach.run hagain, ⟨_, rfl⟩, ⟨⟨"T", 0⟩, 0, (draftFor 0).record 0, some ⟨"tx", ⟨1000, 0⟩, 1⟩⟩,
    ⟨"tx", ⟨1000, 0⟩, 1⟩, rfl, ⟨List.Sublist.refl _, ?_⟩, rfl, ?_, ?_⟩
  · decide +kernel
  · decide +kernel
  · refine ⟨_, rfl, ?_⟩
    decide +kernel

end Scene
end FencedLog
