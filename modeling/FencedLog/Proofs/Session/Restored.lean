/-
# An operation that fails is as if it had not been called

An operation may send requests, wait for room and for a flush, and pass through
other lifecycles before it fails. When it does, the session stands where it
stood before the call, with the same identity, and it has counted no
transaction (`restores`). What is not allowed where the session stands fails at
once, and then nothing at all has been done.

Key definitions: `Session.Completes`, `Session.Restored`.
Key theorems: `Session.keeps_standing`, `Session.restores`.
-/
import FencedLog.Proofs.Session.Once
import FencedLog.Proofs.Session.Standing

namespace FencedLog
namespace Session

/-- A call of `op` that runs through `es` and ends with `e`, where it returns
`r`. -/
structure Completes (s : Session) (op : Operation) (es : List Event) (e : Event)
    (r : Except SessionError Report) : Prop where
  idle : s.wait = .nothing
  call : (es ++ [e]).head? = some (.called op)
  runs : ∀ x, .returned x ∉ (s.run es).2
  ends : .returned r ∈ ((s.run es).1.step e).2

/-- The session stands where it stood, and may be called again. -/
structure Restored (s s' : Session) : Prop where
  lifecycle : s'.lifecycle = s.lifecycle
  identity : s'.identity = s.identity
  inherited : s'.inherited = s.inherited
  attached : s'.attached = s.attached
  committed : s'.shared.counters.committed = s.shared.counters.committed
  aborted : s'.shared.counters.aborted = s.shared.counters.aborted
  idle : s'.wait = .nothing

variable {s : Session} {op : Operation} {e : Event} {err : SessionError}

theorem restored_of_standing {s' : Session} (h : s'.standing = s.standing) (hw : s.wait = .nothing)
    (hw' : s'.wait = .nothing) : Restored s s' := by
  rw [standing_of_ne (s := s) (by simp [hw]), standing_of_ne (by simp [hw'])] at h
  obtain ⟨hl, hi, hinh, ha, hc, hab⟩ := Standing.mk.inj h
  exact ⟨hl, hi, hinh, ha, hc, hab, hw'⟩

/-- While an operation other than a close goes on, the session keeps its
standing. -/
theorem Fares.keeps {r : Session × List Effect} (h : s.Fares op r) (ho : op ≠ .close)
    (hr : ∀ x, .returned x ∉ r.2) : r.1.standing = s.standing ∧ r.1.wait ≠ .nothing := by
  cases h with
  | goesOn h hw _ => exact ⟨h, hw⟩
  | fails err _ _ he => exact absurd (he ▸ List.mem_singleton_self _) (hr (.error err))
  | reports before x _ _ he => exact absurd (he ▸ by simp) (hr (.ok x))
  | acquires _ _ _ he => exact absurd (he ▸ List.mem_singleton_self _) (hr (.ok .done))
  | begins _ _ he => exact absurd (he ▸ List.mem_singleton_self _) (hr (.ok .done))
  | concludes _ _ _ he => exact absurd (he ▸ List.mem_singleton_self _) (hr (.ok .done))
  | closes _ _ _ hop => exact absurd hop ho

/-- An operation that fails now has kept the standing to the end; if it was not
allowed, it has done nothing. -/
theorem Fares.failed {r : Session × List Effect} (h : s.Fares op r)
    (hr : .returned (.error err) ∈ r.2) : r.1.standing = s.standing ∧ r.1.wait = .nothing ∧
      r.2 = [.returned (.error err)] ∧
      ∀ name lc, err = .illegalState name lc → s.wait = .nothing ∧ r.1 = s := by
  cases h with
  | goesOn _ _ he => exact absurd hr (he _)
  | fails err' h hw he hi =>
    rw [he, List.mem_singleton, Effect.returned.injEq, Except.error.injEq] at hr
    subst hr
    exact ⟨h, hw, he, hi⟩
  | reports before x _ _ he hb =>
    rw [he] at hr
    rcases List.mem_append.mp hr with hm | hm
    · exact absurd hm (hb _)
    · cases List.mem_singleton.mp hm
  | acquires _ _ _ he => rw [he] at hr; cases List.mem_singleton.mp hr
  | begins _ _ he => rw [he] at hr; cases List.mem_singleton.mp hr
  | concludes _ _ _ he => rw [he] at hr; cases List.mem_singleton.mp hr
  | closes _ _ _ _ _ he =>
    rcases he with ⟨he, -⟩ | ⟨he, -⟩
    · rw [he] at hr
      cases hr
    · simp [he] at hr

/-- A running operation that does not return keeps the standing, through any
number of events. -/
theorem keeps_standing (ho : op ≠ .close) {lc : Lifecycle} : ∀ (es : List Event) {s : Session}
    {b : Daybook}, s.Poised b.call → s.wait ≠ .nothing → b.call = some ⟨op, lc, none⟩ →
    .abandoned ∉ es → (∀ x, .returned x ∉ (s.run es).2) →
      (s.run es).1.standing = s.standing ∧ (s.run es).1.wait ≠ .nothing ∧
        (s.run es).1.Poised (b.run s es).call ∧ (b.run s es).call = some ⟨op, lc, none⟩
  | [], s, b, hp, hw, hcall, _, _ => ⟨rfl, hw, hp, hcall⟩
  | e :: es, s, b, hp, hw, hcall, hne, hr => by
    have hr₁ : ∀ x, .returned x ∉ (s.step e).2 := fun x hm => hr x (List.mem_append_left _ hm)
    have hr₂ : ∀ x, .returned x ∉ ((s.step e).1.run es).2 := fun x hm =>
      hr x (List.mem_append_right _ hm)
    have he : e ≠ .abandoned := fun h => hne (h ▸ List.mem_cons_self)
    have hbook : b.called s e = b := by
      cases e with
      | called op' => exact (called_busy hw b).2
      | _ => rfl
    have hcall' : (b.step s e).call = some ⟨op, lc, none⟩ := by rw [call_step hr₁, hbook, hcall]
    obtain ⟨own, work, hc⟩ := hp.coupled
    have hstep : (s.step e).1.standing = s.standing ∧ (s.step e).1.wait ≠ .nothing := by
      rcases fares_step hc hp.inherits he with ⟨op', hop, hf⟩ | ⟨hst, hwait, -⟩
      · rcases hop with ⟨hn, -⟩ | ⟨-, lc', hcall''⟩
        · exact absurd hn hw
        · rw [hcall] at hcall''
          obtain rfl := (Call.mk.inj (Option.some.inj hcall'')).1
          exact hf.keeps ho hr₁
      · exact ⟨hst, hwait ▸ hw⟩
    obtain ⟨hst, hw', hp', hcall''⟩ := keeps_standing ho es (poised_step hp he) hstep.2 hcall'
      (fun hm => hne (List.mem_cons_of_mem _ hm)) hr₂
    exact ⟨hst.trans hstep.1, hw', hp', hcall''⟩

theorem poised_run : ∀ (es : List Event) {s : Session} {b : Daybook}, s.Poised b.call →
    .abandoned ∉ es → (s.run es).1.Poised (b.run s es).call
  | [], _, _, h, _ => h
  | _ :: es, _, _, h, hne => poised_run es
      (poised_step h fun he => hne (he ▸ List.mem_cons_self))
      fun hm => hne (List.mem_cons_of_mem _ hm)

/-- What a call of a session that is poised leaves behind when it fails. -/
theorem Poised.undone {b : Daybook} (h : s.Poised b.call) (ho : op ≠ .close) {es : List Event}
    (hes : .abandoned ∉ es ++ [e]) (hc : s.Completes op es e (.error err)) :
    Restored s ((s.run es).1.step e).1 ∧ ∀ name lc, err = .illegalState name lc →
      es = [] ∧ s.step e = (s, [.returned (.error err)]) := by
  have he : e ≠ .abandoned := fun h => hes (List.mem_append_right _ (h ▸ List.mem_singleton_self _))
  cases es with
  | nil =>
    -- it fails at once
    obtain rfl : e = .called op := Option.some.inj hc.call
    obtain ⟨own, work, hcpl⟩ := h.coupled
    rcases fares_step hcpl h.inherits he with ⟨op', -, hf⟩ | ⟨-, -, hret⟩
    · obtain ⟨hst, hw, heff, hi⟩ := hf.failed hc.ends
      exact ⟨restored_of_standing hst hc.idle hw, fun name lc hil =>
        ⟨rfl, Prod.ext (hi name lc hil).2 heff⟩⟩
    · exact absurd hc.ends (hret _)
  | cons e₀ es =>
    obtain rfl : e₀ = .called op := Option.some.inj hc.call
    have hr₁ : ∀ x, .returned x ∉ (s.step (.called op)).2 := fun x hm =>
      hc.runs x (List.mem_append_left _ hm)
    have hr₂ : ∀ x, .returned x ∉ ((s.step (.called op)).1.run es).2 := fun x hm =>
      hc.runs x (List.mem_append_right _ hm)
    have hstep : s.step (.called op) = s.called op := by rw [step, hc.idle]
    obtain ⟨own, work, hcpl⟩ := h.coupled
    obtain ⟨hst, hw⟩ := (hstep ▸ fares_called hcpl.sane hc.idle op).keeps ho hr₁
    have hcall : (b.step s (.called op)).call = some ⟨op, s.lifecycle, none⟩ := by
      rw [call_step hr₁]
      simp only [Daybook.called, hc.idle]
    obtain ⟨hst', hw', hp', hcall'⟩ := keeps_standing ho es (poised_step h (by simp)) hw hcall
      (fun hm => hes (by simp [hm])) hr₂
    obtain ⟨own', work', hcpl'⟩ := hp'.coupled
    rcases fares_step hcpl' hp'.inherits he with ⟨op', -, hf⟩ | ⟨-, -, hret⟩
    · obtain ⟨hst'', hw'', -, hi⟩ := hf.failed hc.ends
      exact ⟨restored_of_standing (hst''.trans (hst'.trans hst)) hc.idle hw'',
        fun name lc hil => absurd (hi name lc hil).1 hw'⟩
    · exact absurd hc.ends (hret _)

/-- **An operation that fails restores the session.** An operation that is not
allowed changes nothing at all, and has no effect but to return. -/
theorem restores {config : SessionConfig} {connected : Bool} (h : build config connected = .ok s)
    {before : List Event} (hb : .abandoned ∉ before) (ho : op ≠ .close) {es : List Event}
    (hes : .abandoned ∉ es ++ [e])
    (hc : (s.run before).1.Completes op es e (.error err)) :
    Restored (s.run before).1 (((s.run before).1.run es).1.step e).1 ∧
      ∀ name lc, err = .illegalState name lc →
        es = [] ∧ (s.run before).1.step e = ((s.run before).1, [.returned (.error err)]) := by
  have hp : s.Poised Daybook.empty.call := poised_build h
  exact (poised_run before hp hb).undone ho hes hc

/-- A session adopts an identity and begins a transaction. -/
def adopts : List Event := [.called (.resume 7 0), .called .begin, .round 1]

/-- It commits: the worker reaches the flush, and the broker is asked. -/
def commits : List Event := [.called (.finish .commit), .round 1, .woken]

/-- Nothing is answered to the request to commit, and the session is in its
transaction again. -/
theorem restores_unanswered : Session.build Scene.settings true = .ok (fresh Scene.settings) ∧
    Event.abandoned ∉ adopts ∧ Operation.finish .commit ≠ .close ∧
    ((fresh Scene.settings).run (adopts ++ commits)).1.lifecycle = .committing ∧
    ((fresh Scene.settings).run adopts).1.Completes (.finish .commit) commits
      (.answered (.error (.timedOut .zero))) (.error (.transport (.timedOut .zero))) ∧
    Restored ((fresh Scene.settings).run adopts).1
      ((((fresh Scene.settings).run adopts).1.run commits).1.step
        (.answered (.error (.timedOut .zero)))).1 := by
  have hc : ((fresh Scene.settings).run adopts).1.Completes (.finish .commit) commits
      (.answered (.error (.timedOut .zero))) (.error (.transport (.timedOut .zero))) := by
    refine ⟨rfl, rfl, fun x hm => ?_, List.mem_singleton_self _⟩
    rw [show (((fresh Scene.settings).run adopts).1.run commits).2 =
      [.asked (.finish "tx" ⟨7, 0⟩ .commit)] from rfl] at hm
    cases List.mem_singleton.mp hm
  exact ⟨build_settings, by simp [adopts], by simp, rfl, hc,
    (restores build_settings (by simp [adopts]) (by simp) (by simp [commits]) hc).1⟩

end Session
end FencedLog
