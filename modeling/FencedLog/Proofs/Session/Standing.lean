/-
# Where a session stands between its operations

An operation that runs may have moved the lifecycle on, but it knows where the
session goes back to. What the session stands on meanwhile (`Standing`) changes
only where an operation succeeds, and in four ways: an identity is taken, a
transaction begins, one is concluded, or the session is closed (`Fares`). An
operation that fails leaves it as it was, and one that is not allowed leaves
the whole session as it was. The worker never touches it.

Key definitions: `Standing`, `Session.standing`, `Session.Fares`,
`Session.RunsFor`.
Key theorems: `Session.fares_called`, `Session.fares_answered`,
`Session.fares_woken`, `Session.fares_step`.
-/
import FencedLog.Proofs.Session.Accounted

namespace FencedLog

open Stance

structure Standing where
  lifecycle : Lifecycle
  identity : Option Identity
  inherited : Bool
  /-- Whether the session can queue messages for its worker. -/
  attached : Bool
  committed : Nat
  aborted : Nat

/-- The transaction is over. -/
def Standing.conclude (v : Standing) : Outcome → Standing
  | .commit => { v with lifecycle := .ready, inherited := false, committed := v.committed + 1 }
  | .abort => { v with lifecycle := .ready, inherited := false, aborted := v.aborted + 1 }

/-- Whether the operation takes an identity when it succeeds. -/
def Operation.acquires : Operation → Bool
  | .init | .resume .. | .resumeFrom _ => true
  | _ => false

theorem SessionError.ofBroker_ne (txid : String) (id : Option Identity) (e : BrokerError)
    (name : String) (lc : Lifecycle) : ofBroker txid id e ≠ .illegalState name lc := by
  cases e <;> cases id <;> simp [ofBroker, BrokerError.isRetriable]

theorem Running.ne_nothing {lc now : Lifecycle} {wait : Wait} {op : Operation}
    (h : Running lc now wait op) : wait ≠ .nothing := by
  cases h <;> simp

theorem DeliveryError.forSession_ne (e : DeliveryError) (name : String) (lc : Lifecycle) :
    e.forSession ≠ .illegalState name lc := by
  cases e <;> simp [forSession]

namespace Session

/-- Where the session stands, as it says itself. -/
def plain (s : Session) : Standing :=
  ⟨s.lifecycle, s.identity, s.inherited, s.attached, s.shared.counters.committed,
    s.shared.counters.aborted⟩

/-- Where the session stands between its operations: while the broker is asked
to end the transaction, where it goes back to. -/
def standing (s : Session) : Standing :=
  match s.wait with
  | .finish _ back => { s.plain with lifecycle := back }
  | _ => s.plain

variable {s : Session} {op : Operation}

theorem standing_of_ne (h : ∀ o back, s.wait ≠ .finish o back) : s.standing = s.plain := by
  unfold standing
  split
  · rename_i o back hw
    exact absurd hw (h o back)
  · rfl

/-- What a standing says apart from the lifecycle is what the session says. -/
theorem standing_eq (s : Session) :
    s.standing = { s.plain with lifecycle := s.standing.lifecycle } := by
  unfold standing
  split <;> rfl

theorem inherited_standing (s : Session) : s.standing.inherited = s.inherited :=
  congrArg Standing.inherited s.standing_eq

theorem identity_standing (s : Session) : s.standing.identity = s.identity :=
  congrArg Standing.identity s.standing_eq

/-- What an event does to the standing of a session that runs `op`. -/
inductive Fares (s : Session) (op : Operation) (r : Session × List Effect) : Prop
  /-- The operation goes on. -/
  | goesOn (h : r.1.standing = s.standing) (hw : r.1.wait ≠ .nothing) (he : ∀ x, .returned x ∉ r.2)
  /-- It fails. What is not allowed fails at once, and does nothing else. -/
  | fails (err : SessionError) (h : r.1.standing = s.standing) (hw : r.1.wait = .nothing)
      (he : r.2 = [.returned (.error err)])
      (hi : ∀ name lc, err = .illegalState name lc → s.wait = .nothing ∧ r.1 = s)
  /-- It succeeds, and nothing follows from that. To end no transaction at all
  succeeds as well. -/
  | reports (before : List Effect) (x : Report) (h : r.1.standing = s.standing)
      (hw : r.1.wait = .nothing) (he : r.2 = before ++ [.returned (.ok x)])
      (hb : ∀ x, .returned x ∉ before) (ha : op.acquires = false)
      (hf : ∀ o, op = .finish o → s.standing.lifecycle = .ready ∧ s.inherited = false)
  | acquires (id : Identity)
      (h : r.1.standing = { s.standing with
        lifecycle := .ready, identity := some id, inherited := op.resumed?.isSome
        attached := true })
      (hw : r.1.wait = .nothing) (he : r.2 = [.returned (.ok .done)])
      (hl : s.standing.lifecycle = .uninitialized) (ho : op = .init ∨ op.resumed? = some id)
  | begins (h : r.1.standing = { s.standing with lifecycle := .inTransaction })
      (hw : r.1.wait = .nothing) (he : r.2 = [.returned (.ok .done)])
      (hl : s.standing.lifecycle = .ready) (ho : op = .begin)
  | concludes (o : Outcome) (h : r.1.standing = s.standing.conclude o) (hw : r.1.wait = .nothing)
      (he : r.2 = [.returned (.ok .done)]) (ho : op = .finish o)
      (hl : s.standing.lifecycle = .inTransaction ∨
        s.standing.lifecycle = .ready ∧ s.inherited = true)
  | closes (attached : Bool)
      (h : r.1.standing = { s.standing with lifecycle := .closed, attached := attached })
      (ha : attached = false ∨ attached = s.attached ∧ s.worker = none) (ho : op = .close)
      (hs : s.wait = .nothing)
      (he : (r.2 = [] ∧ r.1.wait = .drain) ∨
        r.2 = [.disconnected, .returned (.ok .done)] ∧ r.1.wait = .nothing)

/-! ### The ways on -/

theorem fares_failed {s₁ : Session} (h : s₁.plain = s.standing) {e : SessionError}
    (he : ∀ name lc, e ≠ .illegalState name lc) : s.Fares op (s₁.failed e) :=
  .fails e h rfl rfl fun name lc heq => absurd heq (he name lc)

/-- What is not allowed does nothing. -/
theorem fares_illegal (hw : s.wait = .nothing) (name : String) : s.Fares op (s.illegal name) := by
  have hs : { s with wait := .nothing } = s := by rw [← hw]
  refine .fails (.illegalState name s.lifecycle) ?_ rfl rfl fun _ _ _ => ⟨hw, hs⟩
  show Session.standing { s with wait := .nothing } = s.standing
  rw [hs]

theorem fares_reports {s₁ : Session} (h : s₁.plain = s.standing) (x : Report)
    (ha : op.acquires = false)
    (hf : ∀ o, op = .finish o → s.standing.lifecycle = .ready ∧ s.inherited = false) :
    s.Fares op (s₁.finished (.ok x)) :=
  .reports [] x h rfl rfl ((by simp)) ha hf

theorem fares_waits {s₁ : Session} (h : s₁.plain = s.standing) {wait : Wait}
    (hw : ∀ o back, wait ≠ .finish o back) (hn : wait ≠ .nothing) {effects : List Effect}
    (he : ∀ x, .returned x ∉ effects) : s.Fares op ({ s₁ with wait := wait }, effects) :=
  .goesOn ((standing_of_ne (s := { s₁ with wait := wait }) hw).trans h) hn he

/-- A send is queued, waits for room, or is abandoned. -/
theorem fares_push_send {s₁ : Session} (h : s₁.plain = s.standing) (p : Pending)
    (ho : ∃ draft ticket present, op = .send draft ticket present) :
    s.Fares op (s₁.push (.send p) .sent) := by
  obtain ⟨draft, ticket, present, rfl⟩ := ho
  rcases stance_push (rfl : s₁.stance = s₁.stance) with ⟨w, -, -, he⟩ | ⟨w, -, -, he⟩ | ⟨-, he⟩
  · rw [he]
    exact .reports [] .done h rfl rfl (by simp) rfl (by simp)
  · rw [he]
    exact fares_waits h (by simp) (by simp) (by simp)
  · rw [he]
    exact .reports [.deed (.completed p.ticket (.error .abandoned))] .done h rfl rfl (by simp) rfl
      (by simp)

theorem fares_push_begin {s₁ : Session} (h : s₁.plain = s.standing)
    (hl : s.standing.lifecycle = .ready) (ho : op = .begin) :
    s.Fares op (s₁.push (.barrier .newTransaction) .begun) := by
  rcases stance_push (rfl : s₁.stance = s₁.stance) with ⟨w, -, -, he⟩ | ⟨w, -, -, he⟩ | ⟨-, he⟩
  · rw [he]
    exact .begins (congrArg (fun v : Standing => { v with lifecycle := .inTransaction }) h) rfl rfl
      hl ho
  · rw [he]
    exact fares_waits h (by simp) (by simp) (by simp)
  · rw [he]
    exact fares_failed h (by simp)

theorem fares_push_flush {s₁ : Session} (h : s₁.plain = s.standing) (next : AfterFlush) :
    s.Fares op (s₁.push (.barrier .flush) (.flush next)) := by
  rcases stance_push (rfl : s₁.stance = s₁.stance) with ⟨w, -, -, he⟩ | ⟨w, -, -, he⟩ | ⟨-, he⟩
  · rw [he]
    exact .goesOn h (by simp [pushed]) (by simp [pushed])
  · rw [he]
    exact fares_waits h (by simp) (by simp) (by simp)
  · rw [he]
    exact fares_failed h (by simp)

theorem plain_route (s : Session) (draft : Draft) (count : Nat) :
    (s.route draft count).1.plain = s.plain := by
  unfold route
  split
  · rfl
  · split
    · split <;> rfl
    · rfl
    · rfl

theorem fares_enqueue {s₁ : Session} (h : s₁.plain = s.standing) {draft : Draft} {ticket : Ticket}
    {present : Int} (target : Except DeliveryError TopicPartition)
    (ho : op = .send draft ticket present) :
    s.Fares op (s₁.enqueue draft ticket present target) := by
  unfold enqueue
  refine fares_push_send ?_ _ ⟨draft, ticket, present, ho⟩
  exact h

theorem fares_conclude {o : Outcome} (h : s.plain = s.standing ∨ ∃ back, s.wait = .finish o back)
    (ho : op = .finish o) (hl : s.standing.lifecycle = .inTransaction ∨
      s.standing.lifecycle = .ready ∧ s.inherited = true) : s.Fares op (s.conclude o) := by
  refine .concludes o ?_ rfl rfl ho hl
  rcases h with h | ⟨back, hw⟩
  · rw [← h]
    cases o <;> rfl
  · simp only [standing, hw]
    cases o <;> rfl

/-- The broker is asked to end the transaction: if it refuses, the session goes
back to where it is. -/
theorem fares_askFinish (h : s.plain = s.standing) (hid : s.identity ≠ none) (o : Outcome) :
    s.Fares op (s.askFinish o s.lifecycle) := by
  obtain ⟨id, hid⟩ := Option.ne_none_iff_exists'.mp hid
  unfold askFinish
  rw [hid]
  refine .goesOn ?_ (by simp [ask]) (by simp [ask])
  rw [← h]
  cases o <;> simp [ask, standing, plain, hid]

theorem fares_finishFlushed (hs : s.stance.Sane) {o : Outcome} (hw : s.wait = .flush (.finish o))
    (ho : op = .finish o) : s.Fares op (s.finishFlushed o) := by
  have hl : s.lifecycle = .inTransaction := hs.flushing o hw
  have hid : s.identity ≠ none := (hs.manned (by rw [show s.stance.lifecycle = _ from hl]; rfl)).2
  have h : s.plain = s.standing := (standing_of_ne (by simp [hw])).symm
  have hopen : s.standing.lifecycle = .inTransaction := h ▸ hl
  unfold finishFlushed
  cases s.shared.fatal with
  | some e =>
    cases o with
    | commit =>
      refine fares_failed (Eq.trans ?_ h) (DeliveryError.forSession_ne e)
      simp [plain, hl]
    | abort => exact fares_conclude (Or.inl h) ho (Or.inl hopen)
  | none =>
    simp only
    split
    · rw [← hl]
      exact fares_askFinish h hid o
    · exact fares_conclude (Or.inl h) ho (Or.inl hopen)

theorem fares_askFlush (hs : s.stance.Sane) (hw : s.wait = .nothing) {next : AfterFlush}
    (h : (next = .report ∧ op = .flush) ∨ s.lifecycle = .inTransaction) :
    s.Fares op (s.askFlush next) := by
  have hp : s.plain = s.standing := (standing_of_ne (by simp [hw])).symm
  unfold askFlush
  cases hwk : s.worker with
  | none =>
    rcases h with ⟨rfl, rfl⟩ | hl
    · exact fares_reports hp .done rfl (by simp)
    · exact absurd hwk (hs.manned (by rw [show s.stance.lifecycle = _ from hl]; rfl)).1
  | some w =>
    refine fares_push_flush ?_ next
    exact hp

/-! ### Events of the session -/

theorem fares_resume (hw : s.wait = .nothing) (hl : s.lifecycle = .uninitialized)
    {producer epoch : Int} (ho : op.resumed? = some ⟨producer, epoch⟩) :
    s.Fares op (s.resume producer epoch) := by
  have hp : s.plain = s.standing := (standing_of_ne (by simp [hw])).symm
  unfold resume
  split
  · exact fares_failed hp (by simp)
  · refine .acquires ⟨producer, epoch⟩ ?_ rfl rfl (hp ▸ hl) (Or.inr ho)
    rw [← hp, ho]
    rfl

theorem fares_finish (hs : s.stance.Sane) (hw : s.wait = .nothing) (name : String) {o : Outcome}
    (ho : op = .finish o) : s.Fares op (s.finish name o) := by
  have hp : s.plain = s.standing := (standing_of_ne (by simp [hw])).symm
  -- no other operation is on its way to an end
  have hne : ∀ o, s.lifecycle ≠ Outcome.ending o := not_ending hs (by simp [stance, hw])
  unfold finish
  split
  · exact fares_illegal hw name
  · exact fares_illegal hw name
  · rename_i hl
    split
    · have hid := (hs.manned (by rw [show s.stance.lifecycle = _ from hl]; rfl)).2
      rw [← hl]
      exact fares_askFinish hp hid o
    · rename_i hi
      subst ho
      exact fares_reports hp .done rfl fun _ _ => ⟨hp ▸ hl, by simpa using hi⟩
  · rename_i hl
    exact fares_askFlush hs hw (Or.inr hl)
  · rename_i hl
    exact absurd hl (hne .commit)
  · rename_i hl
    exact absurd hl (hne .abort)

theorem fares_called (hs : s.stance.Sane) (hw : s.wait = .nothing) (op : Operation) :
    s.Fares op (s.called op) := by
  have hp : s.plain = s.standing := (standing_of_ne (by simp [hw])).symm
  have ask : ∀ {op : Operation} {wait : Wait} {q : Request}, (∀ o back, wait ≠ .finish o back) →
      wait ≠ .nothing → s.Fares op (s.ask wait q) := fun hne hn => fares_waits hp hne hn (by simp)
  cases op with
  | init =>
    simp only [called]
    split
    · exact ask (by simp) (by simp)
    · exact fares_illegal hw _
  | resume producer epoch =>
    simp only [called]
    split
    · rename_i hl
      exact fares_resume hw hl rfl
    · exact fares_illegal hw _
  | resumeFrom token =>
    simp only [called]
    split
    · exact fares_illegal hw _
    · rename_i hl
      split
      · exact fares_failed hp (by simp)
      · exact fares_resume hw (Decidable.not_not.mp hl) rfl
  | begin =>
    simp only [called]
    split
    · rename_i hl
      unfold begin
      split
      · exact fares_failed hp (DeliveryError.forSession_ne _)
      · exact fares_push_begin hp (hp ▸ hl) rfl
    · exact fares_illegal hw _
  | send draft ticket present =>
    simp only [called]
    split
    · unfold send
      split
      · exact fares_enqueue ((plain_route s draft _).trans hp) _ rfl
      · exact ask (by simp) (by simp)
    · exact fares_illegal hw _
  | flush =>
    simp only [called]
    split
    · exact fares_illegal hw _
    · exact fares_askFlush hs hw (Or.inl ⟨rfl, rfl⟩)
  | finish o => cases o <;> exact fares_finish hs hw _ rfl
  | listing topic =>
    simp only [called]
    split
    · exact fares_illegal hw _
    · exact ask (by simp) (by simp)
  | close =>
    simp only [called, close]
    split
    · exact fares_reports hp .done rfl (by simp)
    · split
      · refine .closes false ?_ (Or.inl rfl) rfl hw (Or.inl ⟨rfl, rfl⟩)
        rw [← hp]
        rfl
      · rename_i hn
        refine .closes s.attached ?_ (Or.inr ⟨rfl, hn⟩) rfl hw (Or.inr ⟨rfl, rfl⟩)
        rw [← hp]
        rfl

/-- The session hears an answer while it runs `op`. -/
theorem fares_answered {lc : Lifecycle} (hr : Running lc s.lifecycle s.wait op)
    (hi : ∀ o, s.wait = .finish o .ready → s.inherited = true) (answer : Answer) :
    s.Fares op (s.answered answer) := by
  have stays : s.Fares op (s, []) := .goesOn rfl hr.ne_nothing (by simp)
  unfold answered
  split
  · rename_i id hw
    have hp : s.plain = s.standing := (standing_of_ne (by simp [hw])).symm
    rw [hw] at hr
    cases hr with
    | identity hl =>
      refine .acquires id ?_ rfl rfl (hp ▸ hl) (Or.inl rfl)
      rw [← hp]
      rfl
  · rename_i e hw
    exact fares_failed (standing_of_ne (by simp [hw])).symm (SessionError.ofBroker_ne _ _ e)
  · rename_i topic infos hw
    have hp : s.plain = s.standing := (standing_of_ne (by simp [hw])).symm
    rw [hw] at hr
    cases hr
    exact .reports [] _ hp rfl rfl (by simp) rfl (by simp)
  · rename_i topic e hw
    exact fares_failed (standing_of_ne (by simp [hw])).symm (SessionError.ofBroker_ne _ _ e)
  · rename_i draft ticket present infos hw
    have hp : s.plain = s.standing := (standing_of_ne (by simp [hw])).symm
    rw [hw] at hr
    cases hr
    exact fares_enqueue ((plain_route (s.learn draft.topic infos) draft _).trans hp) _ rfl
  · rename_i draft ticket present e hw
    have hp : s.plain = s.standing := (standing_of_ne (by simp [hw])).symm
    rw [hw] at hr
    cases hr
    exact fares_enqueue hp _ rfl
  · rename_i o back hw
    have hback : s.standing.lifecycle = back := by simp only [standing, hw]
    have hr' := hr
    rw [hw] at hr'
    cases hr' with
    | finishing _ hl _ =>
      refine fares_conclude (Or.inr ⟨lc, hw⟩) rfl ?_
      rw [hback]
      rcases hl with rfl | rfl
      · exact Or.inr ⟨rfl, hi o hw⟩
      · exact Or.inl rfl
  · rename_i o back e hw
    unfold finishRefused
    refine fares_failed ?_ (SessionError.ofBroker_ne _ _ e)
    simp only [standing, hw]
    cases e <;> cases hid : s.identity <;> simp [plain, hid, Shared.latch]
  · exact stays

/-- The session looks again while it runs `op`. -/
theorem fares_woken (hs : s.stance.Sane) {lc : Lifecycle}
    (hr : Running lc s.lifecycle s.wait op) : s.Fares op s.woken := by
  have stays : s.Fares op (s, []) := .goesOn rfl hr.ne_nothing (by simp)
  unfold woken
  split
  · rename_i m next hw
    have hp : s.plain = s.standing := (standing_of_ne (by simp [hw])).symm
    rw [hw] at hr
    cases hr with
    | crowded x p => exact fares_push_send hp p ⟨_, _, _, rfl⟩
    | beginning hl => exact fares_push_begin hp (hp ▸ hl) rfl
    | awaiting next => exact fares_push_flush hp next
  · rename_i next hw
    have hp : s.plain = s.standing := (standing_of_ne (by simp [hw])).symm
    split
    · split
      · rw [hw] at hr
        cases hr with
        | flushing _ _ hf =>
          cases hf with
          | report => exact fares_reports hp .done rfl (by simp)
          | finish o => exact fares_finishFlushed hs hw rfl
      · split
        · exact fares_failed hp (by simp)
        · exact stays
    · exact fares_failed hp (by simp)
  · rename_i hw
    have hp : s.plain = s.standing := (standing_of_ne (by simp [hw])).symm
    rw [hw] at hr
    cases hr
    split
    · exact .reports [.disconnected] .done hp rfl rfl (by simp) rfl (by simp)
    · exact stays
  · exact stays

/-! ### Every event -/

/-- The worker has no part in where the session stands. -/
theorem standing_deliver {f : Delivery → Delivery × List Deed}
    (h : ∀ d, (f d).1.shared.counters.committed = d.shared.counters.committed ∧
      (f d).1.shared.counters.aborted = d.shared.counters.aborted) :
    (s.deliver f).1.standing = s.standing ∧ (s.deliver f).1.wait = s.wait ∧
      ∀ x, .returned x ∉ (s.deliver f).2 := by
  unfold deliver
  cases hw : s.worker with
  | none => exact ⟨rfl, rfl, (by simp)⟩
  | some w =>
    refine ⟨?_, rfl, by simp⟩
    obtain ⟨hc, ha⟩ := h ⟨w, s.shared⟩
    unfold standing plain
    simp only [hc, ha]

/-- The worker counts records, not transactions. -/
theorem counters_advances {d : Delivery} {gone : List Message} {r : Delivery × List Deed}
    (h : d.Advances gone r) : r.1.shared.counters.committed = d.shared.counters.committed ∧
      r.1.shared.counters.aborted = d.shared.counters.aborted := by
  rw [h.counters]
  exact ⟨rfl, rfl⟩

/-- The session runs `op` when the event comes, or is called to. -/
def RunsFor (s : Session) (call : Option Call) (e : Event) (op : Operation) : Prop :=
  (s.wait = .nothing ∧ e = .called op) ∨
    s.wait ≠ .nothing ∧ ∃ lc, call = some ⟨op, lc, none⟩

variable {own work : Line} {call : Option Call}

/-- **Every event lets the running operation fare on, or has no part in where
the session stands.** -/
theorem fares_step (hc : Coupled s.stance own work call)
    (hi : ∀ o, s.wait = .finish o .ready → s.inherited = true) {e : Event} (hne : e ≠ .abandoned) :
    (∃ op, s.RunsFor call e op ∧ s.Fares op (s.step e)) ∨
      (s.step e).1.standing = s.standing ∧ (s.step e).1.wait = s.wait ∧
        ∀ x, .returned x ∉ (s.step e).2 := by
  have idle : s.step e = (s, []) → (s.step e).1.standing = s.standing ∧
      (s.step e).1.wait = s.wait ∧ ∀ x, .returned x ∉ (s.step e).2 := by
    intro hstep
    rw [hstep]
    exact ⟨rfl, rfl, (by simp)⟩
  cases e with
  | abandoned => exact absurd rfl hne
  | called op =>
    by_cases hw : s.wait = .nothing
    · have hstep : s.step (.called op) = s.called op := by rw [step, hw]
      exact Or.inl ⟨op, Or.inl ⟨hw, rfl⟩, hstep ▸ fares_called hc.sane hw op⟩
    · exact Or.inr (idle (called_busy hw .empty).1)
  | answered answer =>
    by_cases hw : s.wait = .nothing
    · exact Or.inr (idle (by simp only [step, answered, hw]))
    · obtain ⟨op, lc, hcall, hr⟩ := hc.running hw
      exact Or.inl ⟨op, Or.inr ⟨hw, lc, hcall⟩, fares_answered hr hi answer⟩
  | woken =>
    by_cases hw : s.wait = .nothing
    · exact Or.inr (idle (by simp only [step, woken, hw]))
    · obtain ⟨op, lc, hcall, hr⟩ := hc.running hw
      exact Or.inl ⟨op, Or.inr ⟨hw, lc, hcall⟩, fares_woken hc.sane hr⟩
  | outwaited =>
    by_cases hw : s.wait = .drain
    · left
      obtain ⟨op, lc, hcall, hr⟩ := hc.running (by simp [stance, hw])
      rw [show s.stance.wait = _ from hw] at hr
      cases hr
      refine ⟨.close, Or.inr ⟨by simp [hw], lc, hcall⟩, ?_⟩
      obtain ⟨hst, hwait, hret⟩ := standing_deliver (s := s) (f := Delivery.kill) fun _ => ⟨rfl, rfl⟩
      have hplain : (s.deliver Delivery.kill).1.plain = s.standing := by
        rw [← hst]
        exact (standing_of_ne (by simp [hwait, hw])).symm
      simp only [step, outwaited, hw]
      refine .reports ((s.deliver Delivery.kill).2 ++ [.disconnected]) .done hplain rfl ?_ ?_ rfl
        (by simp)
      · simp [finished]
      · simpa using hret
    · right
      refine idle ?_
      show s.outwaited = (s, [])
      unfold outwaited
      split
      · rename_i hd
        exact absurd hd hw
      · rfl
  | round visible =>
    refine Or.inr (standing_deliver fun d => ?_)
    obtain ⟨gone, h⟩ := Delivery.advances_round d visible
    exact counters_advances h
  | delivered answer =>
    refine Or.inr (standing_deliver fun d => ?_)
    obtain ⟨gone, h⟩ := Delivery.advances_answered d answer
    exact counters_advances h
  | drained =>
    by_cases ha : s.attached = true
    · exact Or.inr (idle (by simp only [step, ha, ↓reduceIte]))
    · simp only [step, ha, Bool.false_eq_true, ↓reduceIte]
      refine Or.inr (standing_deliver fun d => ?_)
      simp only [Delivery.drained]
      split <;> exact ⟨rfl, rfl⟩
  | died => exact Or.inr (standing_deliver fun _ => ⟨rfl, rfl⟩)

/-! ### What holds from event to event -/

/-- A session that is in step with its call. Who ends a transaction without
having begun one has inherited it. -/
structure Poised (s : Session) (call : Option Call) : Prop where
  coupled : ∃ own work, Coupled s.stance own work call
  inherits : ∀ o, s.wait = .finish o .ready → s.inherited = true

theorem poised_build {config : SessionConfig} {connected : Bool}
    (h : build config connected = .ok s) : s.Poised none where
  coupled := (Accounted.start h).coupled
  inherits := fun o hw => by
    obtain ⟨-, -, rfl⟩ := build_eq_ok_iff.mp h
    cases hw

theorem inherits_turn {v v' : Stance} {e : Event} {effects : List Effect}
    (ht : v.Turn e v' effects) (h : ∀ o, v.wait = .finish o .ready → v.inherited = true) :
    ∀ o, v'.wait = .finish o .ready → v'.inherited = true := by
  intro o hw
  cases ht with
  | stay => exact h o hw
  | finishing o' back id hid hback =>
    rcases hback with ⟨-, -, -, -, hi⟩ | ⟨-, rfl, -⟩
    · exact hi
    · cases hw
  | _ => cases hw

theorem poised_step {b : Daybook} (h : s.Poised b.call) {e : Event} (hne : e ≠ .abandoned) :
    (s.step e).1.Poised (b.step s e).call where
  coupled := by
    obtain ⟨own, work, hc⟩ := h.coupled
    exact Daybook.coupled_step hc hne
  inherits := by
    obtain ⟨own, work, hc⟩ := h.coupled
    have same : (s.step e).1.wait = s.wait → (s.step e).1.inherited = s.inherited →
        ∀ o, (s.step e).1.wait = .finish o .ready → (s.step e).1.inherited = true := by
      intro hw hi
      rw [hw, hi]
      exact h.inherits
    have own : OwnEvent e → ∀ o, (s.step e).1.wait = .finish o .ready →
        (s.step e).1.inherited = true := by
      intro he
      rcases turns_step hc he with ⟨hstep, -⟩ | ⟨op, lc, -, ht⟩
      · exact same (by rw [hstep]) (by rw [hstep])
      · exact inherits_turn ht h.inherits
    have deliver : ∀ f, (s.deliver f).1.wait = s.wait ∧ (s.deliver f).1.inherited = s.inherited := by
      intro f
      unfold Session.deliver
      split <;> exact ⟨rfl, rfl⟩
    cases e with
    | abandoned => exact absurd rfl hne
    | called op => exact own (Or.inl ⟨op, rfl⟩)
    | answered answer => exact own (Or.inr (Or.inl ⟨answer, rfl⟩))
    | woken => exact own (Or.inr (Or.inr rfl))
    | outwaited =>
      intro o hw
      simp only [step, outwaited] at hw ⊢
      split at hw
      · cases hw
      · exact h.inherits o hw
    | round visible => exact same (deliver _).1 (deliver _).2
    | delivered answer => exact same (deliver _).1 (deliver _).2
    | died => exact same (deliver _).1 (deliver _).2
    | drained =>
      by_cases ha : s.attached = true
      · exact same (by simp only [step, ha, ↓reduceIte]) (by simp only [step, ha, ↓reduceIte])
      · simp only [step, ha, Bool.false_eq_true, ↓reduceIte] at same ⊢
        exact same (deliver _).1 (deliver _).2

/-- The call of a session that a daybook keeps, while nothing returns. -/
theorem call_step {b : Daybook} {e : Event} (h : ∀ x, .returned x ∉ (s.step e).2) :
    (b.step s e).call = (b.called s e).call := by
  have fold : ∀ (effects : List Effect) (b : Daybook), (∀ x, .returned x ∉ effects) →
      (effects.foldl Daybook.feel b).call = b.call := by
    intro effects
    induction effects with
    | nil => exact fun _ _ => rfl
    | cons x effects ih =>
      intro b hx
      rw [List.foldl_cons, ih _ fun y hy => hx y (List.mem_cons_of_mem x hy)]
      rcases x with q | ⟨q | ⟨t, c⟩ | t⟩ | r | _
      case returned => exact absurd List.mem_cons_self (hx r)
      all_goals rfl
  exact fold _ _ h

end Session
end FencedLog
