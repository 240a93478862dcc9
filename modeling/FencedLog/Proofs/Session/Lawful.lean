/-
# The life of a session

Between its operations a session is in one of four lifecycles, whatever the
broker has answered and whatever became of its worker, and it can reach its
worker in two of them. It has one identity at most, keeps it for all its life,
and puts it on every request that needs one. Once it is closed it stays closed,
and nothing is allowed any more. Its calls explain what it inherits and how
many transactions it has counted (`Session.lawful`).

Key definitions: `Session.Orderly`, `Session.Lawful`.
Key theorems: `Session.orderly_step`, `Session.signs_step`,
`Session.refuses_of_closed`, `Session.lawful`.
-/
import FencedLog.Proofs.Session.Annals
import FencedLog.Proofs.Session.Halt

namespace FencedLog

open Stance
open Broker (Under)

/-! ### Every request carries the identity -/

/-- Who a request is made by is said once. -/
theorem under_unique {x y : String} {id id' : Identity} {q : Request} (h : Under x id q)
    (h' : Under y id' q) : y = x ∧ id' = id := by
  cases q with
  | init => exact h.elim
  | listing => exact h.elim
  | enroll => exact ⟨h'.1.symm.trans h.1, h'.2.symm.trans h.2⟩
  | append => exact ⟨h'.1.symm.trans h.1, h'.2.symm.trans h.2⟩
  | finish => exact ⟨h'.1.symm.trans h.1, h'.2.symm.trans h.2⟩

namespace Delivery

/-- All that is asked for is asked for under this identity. -/
def Signs (x : String) (id : Identity) (deeds : List Deed) : Prop :=
  ∀ q, .request q ∈ deeds → Under x id q

variable {x : String} {id : Identity}

theorem signs_nil : Signs x id [] := fun _ h => nomatch h

theorem signs_append {xs ys : List Deed} (hx : Signs x id xs) (hy : Signs x id ys) :
    Signs x id (xs ++ ys) := fun q hq => (List.mem_append.mp hq).elim (hx q) (hy q)

theorem signs_of_requests {deeds : List Deed} (h : requests deeds = []) : Signs x id deeds := by
  intro q hq
  have hm : q ∈ requests deeds := List.mem_filterMap.mpr ⟨.request q, hq, rfl⟩
  rw [h] at hm
  cases hm

theorem signs_appendNext (barrier : Option Barrier) : ∀ (batches : List (Batch Load))
    (d : Delivery), d.worker.txid = x → d.worker.identity = id →
      Signs x id (d.appendNext barrier batches).2
  | [], _, _, _ => signs_nil
  | batch :: rest, d, hx, hid => by
    unfold appendNext
    split
    · exact signs_append (signs_of_requests (requests_failAll _ _))
        (signs_appendNext barrier rest _ hx hid)
    · intro q hq
      obtain rfl := Deed.request.inj (List.mem_singleton.mp hq)
      exact ⟨hx, hid⟩

theorem signs_dispatch {d : Delivery} (hx : d.worker.txid = x) (hid : d.worker.identity = id)
    (barrier : Option Barrier) (batches : Batches Load) :
    Signs x id (d.dispatch barrier batches).2 := by
  unfold dispatch
  split
  · exact signs_nil
  · split
    · exact signs_appendNext barrier _ d hx hid
    · intro q hq
      obtain rfl := Deed.request.inj (List.mem_singleton.mp hq)
      exact ⟨hx, hid⟩

variable (d : Delivery)

/-- A worker asks under its own identity only. -/
theorem signs_round (visible : Nat) : Signs d.worker.txid d.worker.identity (d.round visible).2 := by
  unfold round
  split
  · simp only
    split
    · exact signs_nil
    · unfold deliver
      split
      · exact signs_of_requests (requests_failAll _ _)
      · refine signs_append (signs_of_requests (requests_misrouted _)) (signs_dispatch ?_ ?_ _ _)
        · rfl
        · rfl
  · exact signs_nil

theorem signs_answered (answer : Answer) :
    Signs d.worker.txid d.worker.identity (d.answered answer).2 := by
  unfold answered
  split
  · exact signs_appendNext _ _ _ rfl rfl
  · exact signs_of_requests (requests_failAll _ _)
  · exact signs_append (signs_of_requests (requests_placeAll _ _ _)) (signs_appendNext _ _ _ rfl rfl)
  · exact signs_append (signs_of_requests (requests_failAll _ _)) (signs_appendNext _ _ _ rfl rfl)
  · exact signs_nil

end Delivery

namespace Session

variable {s : Session} {own work : Line} {call : Option Call} {e : Event} {q : Request}

/-- The session makes the request, or its worker does. -/
def Asks (effects : List Effect) (q : Request) : Prop :=
  .asked q ∈ effects ∨ .deed (.request q) ∈ effects

theorem asks_turn {v v' : Stance} {effects : List Effect} (h : v.Turn e v' effects)
    (hq : Asks effects q) {x : String} {id : Identity} (hu : Under x id q) :
    x = v.config.txid ∧ v.identity = some id := by
  cases h with
  | identifying | listing | routing =>
    simp only [Asks, List.mem_singleton, Effect.asked.injEq, reduceCtorEq, or_false] at hq
    subst hq
    exact hu.elim
  | finishing o back id' hid =>
    simp only [Asks, List.mem_singleton, Effect.asked.injEq, reduceCtorEq, or_false] at hq
    subst hq
    exact ⟨hu.1.symm, hu.2 ▸ hid⟩
  | _ => simp [Asks] at hq

theorem asks_deliver (hc : Coupled s.stance own work call) {f : Delivery → Delivery × List Deed}
    (hf : ∀ d : Delivery, Delivery.Signs d.worker.txid d.worker.identity (f d).2)
    (hq : Asks (s.deliver f).2 q) {x : String} {id : Identity} (hu : Under x id q) : x = s.config.txid ∧ s.identity = some id := by
  unfold Session.deliver at hq
  cases hw : s.worker with
  | none => simp [hw, Asks] at hq
  | some w =>
    have hm := hc.manned w hw
    simp only [hw, Asks, List.mem_map, Effect.deed.injEq, reduceCtorEq, and_false, exists_false,
      exists_eq_right, false_or] at hq
    obtain ⟨hx, hid⟩ := under_unique (hf ⟨w, s.shared⟩ q hq) hu
    exact ⟨hx.trans hm.txid, hid ▸ hm.identity⟩

/-- **Whatever the session or its worker asks for in a transaction, it asks for
under the identity of the session.** -/
theorem signs_step {b : Daybook} (hc : Coupled s.stance own work b.call)
    (hq : Asks (s.step e).2 q) {x : String} {id : Identity} (hu : Under x id q) :
    x = s.config.txid ∧ s.identity = some id := by
  have turns : OwnEvent e → x = s.config.txid ∧ s.identity = some id := by
    intro he
    rcases turns_step hc he with ⟨hstep, -⟩ | ⟨op, lc, -, ht⟩
    · rw [hstep] at hq
      simp [Asks] at hq
    · exact asks_turn ht hq hu
  have killed : ∀ d : Delivery, Delivery.Signs d.worker.txid d.worker.identity d.kill.2 := by
    intro d q hq
    simp [Delivery.kill] at hq
  cases e with
  | called op => exact turns (Or.inl ⟨op, rfl⟩)
  | answered answer => exact turns (Or.inr (Or.inl ⟨answer, rfl⟩))
  | woken => exact turns (Or.inr (Or.inr rfl))
  | outwaited =>
    simp only [step, outwaited] at hq
    split at hq
    · refine asks_deliver hc killed (q := q) ?_ hu
      simpa [Asks, finished] using hq
    · simp [Asks] at hq
  | abandoned => simp [step, Asks] at hq
  | round visible => exact asks_deliver hc (fun d => d.signs_round visible) hq hu
  | delivered answer => exact asks_deliver hc (fun d => d.signs_answered answer) hq hu
  | drained =>
    simp only [step] at hq
    split at hq
    · simp [Asks] at hq
    · exact asks_deliver hc (fun _ => Delivery.signs_nil) hq hu
  | died => exact asks_deliver hc killed hq hu

/-! ### The annals go on -/

/-- The session is in step with its call, and its past calls explain it. -/
structure Orderly (s : Session) (call : Option Call) (a : Annals) : Prop where
  poised : s.Poised call
  /-- The running call was made where the session still stands. -/
  running : s.wait ≠ .nothing → ∀ op lc, call = some ⟨op, lc, none⟩ →
    ∃ v, a.running = some (op, v) ∧ (op ≠ .close → v = s.standing)
  explained : s.standing.Explained a.past

variable {b : Daybook} {a : Annals}

theorem orderly_build {config : SessionConfig} {connected : Bool}
    (h : build config connected = .ok s) : s.Orderly Daybook.empty.call .empty where
  poised := poised_build h
  running := fun _ _ _ hcall => nomatch hcall
  explained := by
    have hs : s.standing = ⟨.uninitialized, none, false, false, 0, 0⟩ := by
      obtain ⟨-, -, rfl⟩ := build_eq_ok_iff.mp h
      rfl
    rw [hs]
    refine ⟨Or.inl rfl, by simp, fun _ => rfl, rfl, iff_of_false (by simp) ?_, rfl, rfl⟩
    rintro ⟨before, c, after, hp, -⟩
    exact absurd hp (by simp [Annals.empty])

theorem annals_busy {op : Operation} (hw : s.wait ≠ .nothing) :
    a.called s (.called op) = a := by
  rw [Annals.called]
  split
  · rename_i h
    exact absurd h hw
  · rfl

/-- Which call the event belongs to. -/
theorem Orderly.running_of (h : s.Orderly b.call a) {op : Operation} (hr : s.RunsFor b.call e op) :
    (∃ v, (a.called s e).running = some (op, v) ∧ (op ≠ .close → v = s.standing)) ∧
      ∀ op' lc, (b.called s e).call = some ⟨op', lc, none⟩ → op' = op := by
  rcases hr with ⟨hw, rfl⟩ | ⟨hw, lc, hcall⟩
  · refine ⟨⟨s.standing, by simp only [Annals.called, hw], fun _ => rfl⟩, fun op' lc hcall => ?_⟩
    simp only [Daybook.called, hw, Option.some.injEq, Call.mk.injEq] at hcall
    exact hcall.1.symm
  · have hbook : b.called s e = b ∧ a.called s e = a := by
      cases e with
      | called op' => exact ⟨(called_busy hw b).2, annals_busy hw⟩
      | _ => exact ⟨rfl, rfl⟩
    rw [hbook.1, hbook.2]
    refine ⟨h.running hw op lc hcall, fun op' lc' hcall' => ?_⟩
    rw [hcall] at hcall'
    exact (Call.mk.inj (Option.some.inj hcall')).1.symm

/-- **Every event leaves the session orderly.** -/
theorem orderly_step (h : s.Orderly b.call a) (hne : e ≠ .abandoned) :
    (s.step e).1.Orderly (b.step s e).call (a.step s e) := by
  have hp := poised_step h.poised hne
  obtain ⟨own, work, hc⟩ := h.poised.coupled
  have goes : (∀ x, .returned x ∉ (s.step e).2) →
      a.step s e = a.called s e ∧ (b.step s e).call = (b.called s e).call :=
    fun hret => ⟨Annals.foldl_feel _ _ hret, call_step hret⟩
  rcases fares_step hc h.poised.inherits hne with ⟨op, hop, hf⟩ | ⟨hst, hwait, hret⟩
  · obtain ⟨⟨v, hv, hvs⟩, hsame⟩ := h.running_of hop
    -- the running call returns
    have returns : ∀ (before : List Effect) {r}, (s.step e).2 = before ++ [.returned r] →
        (∀ x, .returned x ∉ before) → (s.step e).1.wait = .nothing →
        (s.step e).1.standing.Explained (a.past ++ [⟨op, v, r⟩]) →
        (s.step e).1.Orderly (b.step s e).call (a.step s e) := by
      intro before r he hb hw hex
      have ha : a.step s e = ⟨none, a.past ++ [⟨op, v, r⟩]⟩ := by
        rw [Annals.step, he, Annals.foldl_returned hv hb, Annals.past_called]
      exact ⟨hp, fun hn => absurd hw hn, by rw [ha]; exact hex⟩
    cases hf with
    | goesOn hst hw hret =>
      obtain ⟨ha, hcall⟩ := goes hret
      refine ⟨hp, fun _ op' lc hcall' => ?_, ?_⟩
      · rw [hcall] at hcall'
        obtain rfl := hsame op' lc hcall'
        exact ⟨v, ha ▸ hv, fun hne => (hvs hne).trans hst.symm⟩
      · rw [hst, ha, Annals.past_called]
        exact h.explained
    | fails err hst hw he =>
      refine returns [] he (by simp) hw ?_
      rw [hst]
      exact h.explained.failed op v err
    | reports before x hst hw he hb hacq hfin =>
      refine returns before he hb hw ?_
      rw [hst]
      refine h.explained.reported x hacq fun o ho => ?_
      obtain ⟨hl, hi⟩ := hfin o ho
      exact ⟨hvs (by simp [ho]), hl, s.inherited_standing.trans hi⟩
    | acquires id hst hw he hl ho =>
      refine returns [] he (by simp) hw ?_
      rw [hst]
      exact h.explained.acquire hl ho v
    | begins hst hw he hl ho =>
      refine returns [] he (by simp) hw ?_
      subst ho
      rw [hst]
      exact h.explained.begin hl v
    | concludes o hst hw he ho hl =>
      refine returns [] he (by simp) hw ?_
      subst ho
      rw [hst, hvs (by simp)]
      exact h.explained.conclude o (by rw [inherited_standing]; exact hl)
    | closes attached hst hatt ho hidle he =>
      -- who has no worker cannot reach one
      have hno : attached = false := by
        rcases hatt with hatt | ⟨hatt, hwk⟩
        · exact hatt
        · have hplain : s.standing = s.plain := standing_of_ne (by simp [hidle])
          by_contra hne
          have hreach : s.attached = true := by simpa [hatt] using hne
          have hl := h.explained.attached.mp (by rw [hplain]; exact hreach)
          rw [hplain] at hl
          have hid : s.lifecycle.hasIdentity = true := by
            rcases hl with hl | hl <;> rw [show s.lifecycle = _ from hl] <;> rfl
          exact (hc.sane.manned hid).1 hwk
      subst hno
      have hex : (s.step e).1.standing.Explained a.past := hst ▸ h.explained.close
      rcases he with ⟨he, hw⟩ | ⟨he, hw⟩
      · have hret : ∀ x, .returned x ∉ (s.step e).2 := by simp [he]
        obtain ⟨ha, hcall⟩ := goes hret
        refine ⟨hp, fun _ op' lc hcall' => ?_, ?_⟩
        · rw [hcall] at hcall'
          obtain rfl := hsame op' lc hcall'
          exact ⟨v, ha ▸ hv, fun hne => absurd ho hne⟩
        · rw [ha, Annals.past_called]
          exact hex
      · refine returns [.disconnected] he (by simp) hw ?_
        subst ho
        exact hex.reported .done rfl (by simp)
  · obtain ⟨ha, hcall⟩ := goes hret
    refine ⟨hp, fun hw op lc hcall' => ?_, ?_⟩
    · have hw' : s.wait ≠ .nothing := hwait ▸ hw
      have hbook : b.called s e = b ∧ a.called s e = a := by
        cases e with
        | called op' => exact ⟨(called_busy hw' b).2, annals_busy hw'⟩
        | _ => exact ⟨rfl, rfl⟩
      rw [hcall, hbook.1] at hcall'
      rw [ha, hbook.2, hst]
      exact h.running hw' op lc hcall'
    · rw [ha, Annals.past_called, hst]
      exact h.explained

theorem orderly_run : ∀ (es : List Event) {s : Session} {b : Daybook} {a : Annals},
    s.Orderly b.call a → .abandoned ∉ es → (s.run es).1.Orderly (b.run s es).call (a.run s es)
  | [], _, _, _, h, _ => h
  | _ :: es, _, _, _, h, hne => orderly_run es
      (orderly_step h fun he => hne (he ▸ List.mem_cons_self))
      fun hm => hne (List.mem_cons_of_mem _ hm)

/-! ### Where an orderly session stays -/

/-- Who is closed does not wait for the end of a transaction. -/
theorem Orderly.plain_of_closed (h : s.Orderly call a) :
    s.standing.lifecycle = .closed ↔ s.lifecycle = .closed := by
  by_cases hw : ∃ o back, s.wait = .finish o back
  · obtain ⟨o, back, hw⟩ := hw
    obtain ⟨own, work, hc⟩ := h.poised.coupled
    obtain ⟨op, lc, -, hr⟩ := hc.running (by simp [stance, hw])
    rw [show s.stance.wait = _ from hw] at hr
    cases hr with
    | finishing _ hl hn =>
      have hn' : s.lifecycle = o.ending := hn
      simp only [standing, hw, hn']
      rcases hl with rfl | rfl <;> cases o <;> simp [Outcome.ending]
  · rw [standing_of_ne fun o back he => hw ⟨o, back, he⟩]
    rfl

theorem closed_step (h : s.Orderly b.call a) (hne : e ≠ .abandoned) (hl : s.lifecycle = .closed) :
    (s.step e).1.lifecycle = .closed := by
  have hl' := h.plain_of_closed.mpr hl
  obtain ⟨own, work, hc⟩ := h.poised.coupled
  refine (orderly_step h hne).plain_of_closed.mp ?_
  rcases fares_step hc h.poised.inherits hne with ⟨op, -, hf⟩ | ⟨hst, -, -⟩
  · cases hf with
    | goesOn hst => rw [hst, hl']
    | fails _ hst => rw [hst, hl']
    | reports _ _ hst => rw [hst, hl']
    | acquires _ _ _ _ hn => rw [hl'] at hn; cases hn
    | begins _ _ _ hn => rw [hl'] at hn; cases hn
    | concludes _ _ _ _ _ hn => rw [hl'] at hn; rcases hn with hn | ⟨hn, -⟩ <;> cases hn
    | closes _ hst => rw [hst]
  · rw [hst, hl']

/-- An identity that a session has is its identity for ever. -/
theorem identity_step (h : s.Orderly b.call a) (hne : e ≠ .abandoned) {id : Identity}
    (hid : s.identity = some id) : (s.step e).1.identity = some id := by
  rw [← identity_standing] at hid ⊢
  obtain ⟨own, work, hc⟩ := h.poised.coupled
  rcases fares_step hc h.poised.inherits hne with ⟨op, -, hf⟩ | ⟨hst, -, -⟩
  · cases hf with
    | goesOn hst => rw [hst, hid]
    | fails _ hst => rw [hst, hid]
    | reports _ _ hst => rw [hst, hid]
    | acquires _ _ _ _ hn =>
      rw [h.explained.blank hn] at hid
      cases hid
    | begins hst => rw [hst, hid]
    | concludes o hst => cases o <;> rw [hst, ← hid] <;> rfl
    | closes _ hst => rw [hst, hid]
  · rw [hst, hid]

/-- What every event keeps of an orderly session, every run keeps. -/
theorem Orderly.keeps {P : Session → Prop}
    (step : ∀ {s : Session} {b : Daybook} {a : Annals} {e : Event}, s.Orderly b.call a →
      e ≠ .abandoned → P s → P (s.step e).1) :
    ∀ (es : List Event) {s : Session} {b : Daybook} {a : Annals}, s.Orderly b.call a →
      .abandoned ∉ es → P s → P (s.run es).1
  | [], _, _, _, _, _, hP => hP
  | e :: es, _, _, _, h, hne, hP => by
    have he : e ≠ .abandoned := fun he => hne (he ▸ List.mem_cons_self)
    exact Orderly.keeps step es (orderly_step h he) (fun hm => hne (List.mem_cons_of_mem _ hm))
      (step h he hP)

/-- A request of a run was made under the identity that the session has in the
end. -/
theorem signs_run {x : String} {id : Identity} (hu : Under x id q) : ∀ (es : List Event)
    {s : Session} {b : Daybook} {a : Annals}, s.Orderly b.call a → .abandoned ∉ es →
    Asks (s.run es).2 q → x = s.config.txid ∧ (s.run es).1.identity = some id
  | [], _, _, _, _, _, hq => by simp [run, Asks] at hq
  | e :: es, s, _, _, h, hne, hq => by
    have he : e ≠ .abandoned := fun he => hne (he ▸ List.mem_cons_self)
    have hes : Event.abandoned ∉ es := fun hm => hne (List.mem_cons_of_mem _ hm)
    have hnext := orderly_step h he
    have hq' : Asks (s.step e).2 q ∨ Asks ((s.step e).1.run es).2 q := by
      simp only [run, Asks, List.mem_append] at hq ⊢
      tauto
    rcases hq' with hq' | hq'
    · obtain ⟨own, work, hc⟩ := h.poised.coupled
      obtain ⟨hx, hid⟩ := signs_step hc hq' hu
      exact ⟨hx, Orderly.keeps (fun h hne hid => identity_step h hne hid) es hnext hes
        (identity_step h he hid)⟩
    · obtain ⟨hx, hid⟩ := signs_run hu es hnext hes hq'
      exact ⟨hx.trans (congrArg SessionConfig.txid (config_run s [e])), hid⟩

/-! ### A closed session -/

/-- Nothing is allowed any more, and nobody is told the identity. -/
structure Refuses (s : Session) : Prop where
  calls : ∀ op, op ≠ .close →
    s.step (.called op) = (s, [.returned (.error (.illegalState op.title .closed))])
  identity : ∀ name, s.currentIdentity name = .error (.illegalState name .closed)
  token : s.token = .error (.illegalState "resume_token" .closed)

theorem refuses_of_closed (hl : s.lifecycle = .closed) (hw : s.wait = .nothing) : s.Refuses where
  calls := fun op hop => by
    have illegal : ∀ name, s.illegal name =
        (s, [.returned (.error (.illegalState name .closed))]) := by
      intro name
      have hs : { s with wait := .nothing } = s := by rw [← hw]
      unfold Session.illegal failed finished
      rw [hs, hl]
    rw [step, hw]
    cases op with
    | close => exact absurd rfl hop
    | finish o => cases o <;> simp only [called, finish, hl, illegal, Operation.title]
    | _ => simp [called, hl, illegal, Operation.title]
  identity := fun name => by simp [currentIdentity, hl, Lifecycle.hasIdentity]
  token := by simp [token, currentIdentity, hl, Lifecycle.hasIdentity, Except.map]

/-! ### The life of a session -/

/-- What is true of a session `s`, just built, once the events `es` have come.
Where it waits for nothing no operation runs. -/
structure Lawful (s : Session) (es : List Event) : Prop where
  between : (s.run es).1.wait = .nothing → (s.run es).1.lifecycle = .uninitialized ∨
    (s.run es).1.lifecycle = .ready ∨ (s.run es).1.lifecycle = .inTransaction ∨
      (s.run es).1.lifecycle = .closed
  attached : (s.run es).1.wait = .nothing → ((s.run es).1.attached = true ↔
    (s.run es).1.lifecycle = .ready ∨ (s.run es).1.lifecycle = .inTransaction)
  blank : (s.run es).1.wait = .nothing → (s.run es).1.lifecycle = .uninitialized →
    (s.run es).1.identity = none ∧ (s.run es).1.inherited = false
  /-- At most one call takes an identity. -/
  once : (Annals.empty.run s es).past.countP Past.acquired ≤ 1
  /-- From the call that takes it the identity is the same. -/
  kept : ∀ fs gs c, es = fs ++ gs → c ∈ (Annals.empty.run s fs).past → c.acquired = true →
    ∃ id, (s.run fs).1.identity = some id ∧ (s.run es).1.identity = some id
  signed : ∀ q x id, Asks (s.run es).2 q → Under x id q →
    x = s.config.txid ∧ (s.run es).1.identity = some id
  inherited : (s.run es).1.inherited = true ↔ Standing.Inherits (Annals.empty.run s es).past
  /-- Once closed, closed for ever. -/
  closed : ∀ fs gs, es = fs ++ gs → (s.run fs).1.lifecycle = .closed →
    (s.run es).1.lifecycle = .closed
  refuses : (s.run es).1.wait = .nothing → (s.run es).1.lifecycle = .closed → (s.run es).1.Refuses
  committed : (s.run es).1.shared.counters.committed =
    (Annals.empty.run s es).past.countP (Past.concluded .commit)
  aborted : (s.run es).1.shared.counters.aborted =
    (Annals.empty.run s es).past.countP (Past.concluded .abort)

/-- **The life of a session**, whatever it is called to do, whatever it is
answered, and whatever its worker does. -/
theorem lawful {config : SessionConfig} {connected : Bool} (h : build config connected = .ok s)
    {es : List Event} (hes : .abandoned ∉ es) : s.Lawful es := by
  have horderly : ∀ fs gs, es = fs ++ gs → .abandoned ∉ gs ∧
      (s.run fs).1.Orderly (Daybook.empty.run s fs).call (Annals.empty.run s fs) := by
    rintro fs gs rfl
    exact ⟨fun hm => hes (List.mem_append_right _ hm),
      orderly_run fs (orderly_build h) fun hm => hes (List.mem_append_left _ hm)⟩
  have hlast := (horderly es [] (List.append_nil es).symm).2
  have hex := hlast.explained
  have hplain : (s.run es).1.wait = .nothing → (s.run es).1.standing = (s.run es).1.plain :=
    fun hw => standing_of_ne (by simp [hw])
  have hall := standing_eq (s.run es).1
  refine ⟨fun hw => ?_, fun hw => ?_, fun hw hl => ?_, ?_, ?_, ?_, ?_, ?_, ?_, ?_, ?_⟩
  · rw [hplain hw] at hex
    exact hex.place
  · rw [hplain hw] at hex
    exact hex.attached
  · rw [hplain hw] at hex
    have hid := hex.blank hl
    refine ⟨hid, ?_⟩
    cases hi : (s.run es).1.inherited with
    | false => rfl
    | true => exact absurd (hex.inherited.mp hi) (hex.not_inherits hid)
  · rw [hex.acquired]
    split <;> omega
  · rintro fs gs c hsplit hc hacq
    obtain ⟨hgs, hfs⟩ := horderly fs gs hsplit
    have hsome : (s.run fs).1.standing.identity.isSome = true := by
      by_contra hnone
      have hcount := hfs.explained.acquired
      rw [if_neg hnone, List.countP_eq_zero] at hcount
      exact hcount c hc hacq
    obtain ⟨id, hid⟩ := Option.isSome_iff_exists.mp hsome
    rw [identity_standing] at hid
    refine ⟨id, hid, ?_⟩
    rw [hsplit, run_append]
    exact Orderly.keeps (fun h hne hid => identity_step h hne hid) gs hfs hgs hid
  · intro q x id hq hu
    exact signs_run hu es (orderly_build h) hes hq
  · rw [hall] at hex
    exact hex.inherited
  · intro fs gs hsplit hl
    obtain ⟨hgs, hfs⟩ := horderly fs gs hsplit
    rw [hsplit, run_append]
    exact Orderly.keeps (fun h hne hl => closed_step h hne hl) gs hfs hgs hl
  · exact fun hw hl => refuses_of_closed hl hw
  · rw [hall] at hex
    exact hex.committed
  · rw [hall] at hex
    exact hex.aborted

/-- The transaction that has been adopted is committed, and the session closed. -/
def commitsAndCloses : List Event := adopts ++ commits ++
  [.answered (.ok .finished), .called .close, .drained, .woken]

theorem lawful_commitsAndCloses : build Scene.settings true = .ok (fresh Scene.settings) ∧
    Event.abandoned ∉ commitsAndCloses ∧ (fresh Scene.settings).Lawful commitsAndCloses ∧
    ((fresh Scene.settings).run commitsAndCloses).1.identity = some ⟨7, 0⟩ ∧
    ((fresh Scene.settings).run commitsAndCloses).1.shared.counters.committed = 1 ∧
    ((fresh Scene.settings).run commitsAndCloses).1.lifecycle = .closed ∧
    ((fresh Scene.settings).run commitsAndCloses).1.wait = .nothing :=
  ⟨build_settings, by simp [commitsAndCloses, adopts, commits],
    lawful build_settings (by simp [commitsAndCloses, adopts, commits]), rfl, rfl, rfl, rfl⟩

end Session
end FencedLog
