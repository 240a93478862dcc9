/-
# How a session's transaction ends

When a call to commit that was made in a transaction returns without an error,
the last transaction in which the session has enrolled partitions was
committed, whoever asked for it, and whichever answers were lost on the way.
A commit that makes no request follows no enrollment (`Concluded`).

Key definition: `Scene.Concluded`.
Key theorem: `Scene.Concluded.step`.
-/
import FencedLog.Proofs.Scene.Enlisted

namespace FencedLog
namespace Scene

open Stance

/-- The session is in a transaction, or waits for its end. -/
def Within (v : Stance) : Prop :=
  v.lifecycle = .inTransaction ∨ ∃ o, v.wait = .finish o .inTransaction

/-- The session's worker enrolls partitions. -/
def Enrolling (v : Stance) : Prop :=
  ∃ w fresh batches barrier, v.worker = some w ∧ w.phase = .enrolling fresh batches barrier

/-- What is known of the end of a scene's transaction. -/
structure Concluded (σ : Scene) : Prop where
  /-- Who enrolls, or has enrolled, has started. -/
  started : Within σ.session.stance →
    (σ.chapter.enrollments ≠ [] ∨ Enrolling σ.session.stance) → σ.session.stance.started = true
  /-- A positive answer to the end request is true of the last transaction. -/
  finished : ∀ o back, σ.session.stance.wait = .finish o back → σ.own = .replied (.ok .finished) →
    ∀ T, σ.chapter.newest = some T → σ.chronicle.ledger.ended T = some o
  ready : ∀ o, Ended σ.call o → σ.session.stance.lifecycle = .ready
  committed : Ended σ.call .commit →
    ∀ T, σ.chapter.newest = some T → σ.chronicle.ledger.ended T = some .commit

theorem concluded_start (broker : BrokerConfig) (config : SessionConfig) :
    (start broker config).Concluded where
  started := fun h => by
    rcases h with h | ⟨o, h⟩ <;> cases h
  finished := fun o back h => nomatch h
  ready := fun o ⟨r, h⟩ => nomatch h
  committed := fun ⟨r, h⟩ => nomatch h

variable {σ τ : Scene} {a : Act}

/-- While the session rests, or waits for an end request, nothing is on the
worker's line. -/
theorem Coupled.work_of_resting (hc : σ.Coupled)
    (hl : σ.session.stance.lifecycle ≠ .inTransaction) (hcl : σ.session.stance.lifecycle ≠ .closed) :
    σ.work = .idle := by
  cases hw : σ.session.stance.worker with
  | none => exact (hc.unmanned hw).2
  | some w =>
    have hm := hc.manned w hw
    have hs := hm.serves
    have hr : w.request? = none := by
      rcases (hm.shape.resting hl hcl).1 with hp | hp <;> simp [Worker.request?, hp]
    rwa [hr, Line.serves_none] at hs

theorem Coupled.ending (hc : σ.Coupled) {o : Outcome} {back : Lifecycle}
    (hw : σ.session.stance.wait = .finish o back) : σ.session.stance.lifecycle = o.ending := by
  obtain ⟨op, lc, -, hrun⟩ := hc.running (by simp [hw])
  rw [hw] at hrun
  cases hrun with
  | finishing _ _ hn => exact hn

theorem ending_ne (o : Outcome) : o.ending ≠ .inTransaction ∧ o.ending ≠ .closed := by
  cases o <;> simp [Outcome.ending]

/-- What is on the line of a session that waits for the end of its transaction
is the request to end it. -/
theorem Coupled.asked_end (hc : σ.Coupled) {q : Request} (hq : σ.own = .sent q) {o : Outcome}
    {back : Lifecycle} (hw : σ.session.stance.wait = .finish o back) :
    ∃ id, σ.session.stance.identity = some id ∧ q = .finish σ.session.config.txid id o := by
  rcases hc.asked hq with ⟨hl, -⟩ | ⟨-, -, hne⟩ | ⟨o', back', id, hw', hid, rfl⟩
  · rw [hc.ending hw] at hl
    cases o <;> cases hl
  · exact absurd hw (hne o back)
  · obtain ⟨rfl, -⟩ := Wait.finish.inj (hw.symm.trans hw')
    exact ⟨id, hid, rfl⟩

/-- The broker answers the end request of the session. -/
theorem Enlisted.finished (h : σ.Enlisted) (hc : σ.Coupled) {q : Request} (hq : σ.own = .sent q)
    {now : Span} {o : Outcome} {back : Lifecycle}
    (hw : σ.session.stance.wait = .finish o back)
    (ha : (σ.chronicle.broker.handle now q).2 = .ok .finished) {T : Txn}
    (hT : σ.chapter.newest = some T) :
    (σ.chronicle.act (.request now q)).ledger.ended T = some o := by
  have hman := hc.sane.manned (by rw [hc.ending hw, hasIdentity_ending])
  obtain ⟨w, hwk⟩ := Option.ne_none_iff_exists'.mp hman.1
  have hm := hc.manned w hwk
  have he := h.manned w hwk
  obtain ⟨hx, hid⟩ := he.newest_own hT
  have hq' : q = .finish T.txid T.identity o := by
    obtain ⟨id, hid', rfl⟩ := hc.asked_end hq hw
    rw [hx, hm.txid, hid, ← Option.some.inj (hm.identity.symm.trans hid')]
    rfl
  subst hq'
  exact (he.tracked T hT).ended h.accounted.coordinator h.accounted.kept ha

theorem note_enrollments (chapter : Chapter) (txn : Option Txn) (q : Request) (answer : Answer) :
    (chapter.note txn q answer).enrollments = chapter.enrollments ∨ ∃ x id ps, q = .enroll x id ps := by
  cases q with
  | enroll x id ps => exact Or.inr ⟨x, id, ps, rfl⟩
  | append x id p records =>
    cases answer with
    | error e => exact Or.inl rfl
    | ok r => cases r <;> exact Or.inl rfl
  | _ => exact Or.inl rfl

/-- A request to enroll comes from a worker that waits for its answer. -/
theorem Coupled.enrolling (hc : σ.Coupled) {x : String} {id : Identity} {ps : List TopicPartition}
    (hq : σ.work = .sent (.enroll x id ps)) : Enrolling σ.session.stance := by
  obtain ⟨w, hw, -, ⟨fresh, batches, barrier, hp, -⟩ | ⟨_, _, _, -, he⟩⟩ := hc.ordered hq
  · exact ⟨w, fresh, batches, barrier, hw, hp⟩
  · cases he

/-- Who has not started has not enrolled. -/
theorem Concluded.newest_none (h : σ.Concluded) (hl : σ.session.stance.lifecycle = .inTransaction)
    (hst : σ.session.stance.started = false) : σ.chapter.newest = none := by
  have hnil : σ.chapter.enrollments = [] := by
    by_contra hne
    rw [h.started (Or.inl hl) (Or.inl hne)] at hst
    cases hst
  rw [Chapter.newest, hnil]
  rfl

/-- The broker answers the worker, who is at work only in a transaction. -/
theorem Concluded.reachWork (h : σ.Concluded) (hc : σ.Coupled) {q : Request}
    (hq : σ.work = .sent q) (now : Span) (lost : Option BrokerError) :
    (σ.reachWork now lost q).Concluded := by
  have busy : ∀ {lc : Lifecycle}, σ.session.stance.lifecycle = lc → lc ≠ .inTransaction →
      lc ≠ .closed → False := by
    intro lc hl h₁ h₂
    have hidle := hc.work_of_resting (hl ▸ h₁) (hl ▸ h₂)
    rw [hq] at hidle
    cases hidle
  constructor
  case started =>
    intro hin hen
    rcases note_enrollments σ.chapter (σ.reachWork now lost q).current q
      (σ.chronicle.broker.handle now q).2 with heq | ⟨x, id, ps, rfl⟩
    · exact h.started hin (hen.imp_left fun hne => heq ▸ hne)
    · exact h.started hin (Or.inr (hc.enrolling hq))
  case finished =>
    intro o back hw
    exact (busy (hc.ending hw) (ending_ne o).1 (ending_ne o).2).elim
  case ready => exact h.ready
  case committed =>
    intro hcall
    exact (busy (h.ready _ hcall) (by simp) (by simp)).elim

/-- An event of the session. -/
theorem Concluded.turn (h : σ.Concluded) (hc : σ.Coupled) {e : Event}
    (hanswer : ∀ answer, e = .answered answer → σ.own = .replied answer)
    (ht : σ.Turned e τ.session τ) : τ.Concluded := by
  -- no answer is on the session's line, and no call has ended a transaction
  have build : (∀ o, ¬ Ended τ.call o) → (Within τ.session.stance →
      (τ.chapter.enrollments ≠ [] ∨ Enrolling τ.session.stance) →
        τ.session.stance.started = true) → τ.Concluded := fun hend hst =>
    ⟨hst, fun _ _ _ ho => absurd ho (ht.own _), fun o ho => absurd ho (hend o),
      fun ho => absurd ho (hend _)⟩
  have hstride := ht.stride
  generalize hv : τ.session.stance = v' at hstride build
  cases hstride with
  | quiet hk hchap hended hi hw hr hl =>
    refine build hended fun hin hen => ?_
    have hlc := hin.resolve_right fun ⟨o, hwait⟩ => hw o _ hwait
    rcases hl with ⟨hl, hs⟩ | ⟨hl, -⟩ | hl
    · rw [hs]
      refine h.started (Or.inl (hl.symm.trans hlc)) (hen.imp (fun hne => hchap ▸ hne) ?_)
      rintro ⟨w', f, b, k, hw', hp⟩
      obtain ⟨w, hwk, tail, flushed, -, rfl⟩ := hk.worker w' hw'
      exact ⟨w, f, b, k, hwk, hp⟩
    · rw [hl] at hlc
      cases hlc
    · rw [hl] at hlc
      cases hlc
  | sent s p hp hchap hended hl hv' =>
    refine build hended fun hin hen => ?_
    have hst : Within σ.session.stance → (σ.chapter.enrollments ≠ [] ∨
        Enrolling σ.session.stance) → v'.started = true := by
      rcases hv' with rfl | ⟨w, hw, hph, rfl⟩ <;> exact h.started
    refine hst (Or.inl hl) (hen.imp (fun hne => by rwa [hchap] at hne) ?_)
    rintro ⟨w', f, b, k, hw', hp⟩
    rcases hv' with rfl | ⟨w, hw, hph, rfl⟩
    · exact ⟨w', f, b, k, hw', hp⟩
    · obtain rfl := Option.some.inj hw'
      exact ⟨w, f, b, k, hw, hp⟩
  | begun w started hw hl hph hchap hended hv' =>
    subst hv'
    refine build hended fun _ hen => ?_
    rcases hen with hen | ⟨w', f, b, k, hw', hp⟩
    · rw [hchap] at hen
      exact absurd rfl hen
    · obtain rfl := Option.some.inj hw'
      have hrest := ((hc.manned w hw).shape.resting (by simp [hl]) (by simp [hl])).1
      replace hp : w.phase = .enrolling f b k := hp
      simp [hp] at hrest
  | acquired id inherited hl hi hchap hended hv' =>
    subst hv'
    refine build hended fun hin _ => ?_
    rcases hin with hin | ⟨o, hin⟩ <;> cases hin
  | finishing o back hchap hended hl hr hv' =>
    subst hv'
    refine build hended fun hin hen => h.started ?_ (hen.imp (fun hne => hchap ▸ hne) id)
    rcases hin with hin | ⟨o', hin⟩
    · cases o <;> cases hin
    · obtain ⟨-, rfl⟩ := Wait.finish.inj hin
      exact Or.inl hl
  | concluded o hchap hended h' hv' =>
    subst hv'
    refine ⟨fun hin _ => ?_, fun _ _ _ ho => absurd ho (ht.own _), fun o _ => by rw [hv],
      fun ho T hT => ?_⟩
    · rw [hv] at hin
      rcases hin with hin | ⟨o', hin⟩ <;> cases hin
    · obtain rfl := hended _ ho
      rw [hchap] at hT
      rw [ht.chronicle]
      rcases h' with ⟨back, hw, ha⟩ | ⟨-, hl, ⟨-, ho⟩ | ⟨-, -, hst⟩⟩
      · exact h.finished _ back hw (hanswer _ ha) T hT
      · cases ho
      · rw [h.newest_none hl hst] at hT
        cases hT
  | refused o back err fatal hchap hended hw ha hfat hv' =>
    subst hv'
    refine build hended fun hin hen => h.started ?_ (hen.imp (fun hne => hchap ▸ hne) id)
    rcases hin with hin | ⟨o', hin⟩
    · exact Or.inr ⟨o, hw.trans (by rw [show back = _ from hin])⟩
    · cases hin

/-- **Every step keeps what is known of the end.** -/
theorem Concluded.step (h : σ.Concluded) (he : σ.Enlisted) (hc : σ.Coupled) (hs : σ.Step a τ) :
    τ.Concluded := by
  have stable : ∀ {T : Txn} {o : Outcome} (op : Broker.Op),
      σ.chronicle.ledger.ended T = some o → (σ.chronicle.act op).ledger.ended T = some o :=
    fun op ho => Chronicle.ended_stable he.accounted.kept ho op
  cases hs with
  | same => exact h
  | others op =>
    exact ⟨h.started, fun o back hw ho T hT => stable op (h.finished o back hw ho T hT), h.ready,
      fun hcall T hT => stable op (h.committed hcall T hT)⟩
  | reachOwn now lost q hq =>
    refine ⟨h.started, fun o back hw ho T hT => ?_, h.ready,
      fun hcall T hT => stable _ (h.committed hcall T hT)⟩
    have ha : (σ.chronicle.broker.handle now q).2 = .ok .finished := by
      cases lost with
      | none => exact Line.replied.inj ho
      | some e => cases ho
    exact he.finished hc hq hw ha hT
  | reachWork now lost q hq => exact h.reachWork hc hq now lost
  | refuseOwn e q hq =>
    exact ⟨h.started, fun o back hw ho => (nomatch ho), h.ready, h.committed⟩
  | refuseWork e q hq => exact ⟨h.started, h.finished, h.ready, h.committed⟩
  | turn a e τ hcall hanswer ht => exact h.turn hc hanswer ht
  | moved a w w₀ w' barrier loads acked err q fatal started s' hw hsrc hn hfatal hst hen hv =>
    refine ⟨fun hin hne => ?_, fun o back hwait ho T hT => ?_, fun o ho => ?_, h.committed⟩
    · rw [hv] at hin hne ⊢
      rcases hne with hne | ⟨w'', f, b, k, hw'', hp⟩
      · exact hst (h.started hin (Or.inl hne))
      · obtain rfl := Option.some.inj hw''
        have hreq := hn.keeps.2.2
        simp only [Worker.request?, hp] at hreq
        exact hen _ _ _ hreq.symm
    · rw [hv] at hwait
      exact h.finished o back hwait ho T hT
    · rw [hv]
      exact h.ready o ho
  | stopped a w s' wait call' hw hwait hcall hv =>
    refine ⟨fun hin hne => ?_, fun o back hwait' ho T hT => ?_, fun o ho => ?_,
      fun ho => h.committed (hcall _ ho)⟩
    · rw [hv] at hin hne ⊢
      have hin' : Within σ.session.stance := by
        rcases hin with hin | ⟨o, hin⟩
        · exact Or.inl hin
        · rcases hwait with rfl | rfl
          · exact Or.inr ⟨o, hin⟩
          · cases hin
      rcases hne with hne | ⟨w', f, b, k, hw', hp⟩
      · exact h.started hin' (Or.inl hne)
      · obtain rfl := Option.some.inj hw'
        cases hp
    · rw [hv] at hwait'
      rcases hwait with rfl | rfl
      · exact h.finished o back hwait' ho T hT
      · cases hwait'
    · rw [hv]
      exact h.ready o (hcall o ho)

end Scene
end FencedLog
