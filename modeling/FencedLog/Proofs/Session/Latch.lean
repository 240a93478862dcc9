/-
# A recorded loss of authority lasts

When a loss of authority has been recorded, the session enrolls and appends
nothing more, begins no transaction, and leaves the one it is in: an abort is
not refused, since the broker is not asked, and it returns as soon as the worker
has come to its flush (`Session.Latches`). The losses that are recorded are
those of the worker, and that a newer identity exists. A request to end the
transaction may be refused for another reason that shows that the identity has
lost its authority, and such a refusal leaves no trace (`Session.latches`).

Key definitions: `Session.Leaves`, `Session.Latches`.
Key theorems: `Session.Shut.leaves`, `Session.latches`.
-/
import FencedLog.Proofs.Session.Ending
import FencedLog.Proofs.Session.Once

namespace FencedLog
namespace Session

/-! ### To leave a transaction -/

/-- An abort is called and the first `n` events follow: the session then, and all
effects in order. -/
def aborting (s : Session) (f : ℕ → Event) (n : ℕ) : Session × List Effect :=
  s.run (.called (.finish .abort) :: (List.range n).map f)

/-- An abort is called, and the first thing that is returned is that it is done;
the session is ready again. -/
def Leaves (s : Session) (f : ℕ → Event) : Prop :=
  ∃ n, (∀ r, .returned r ∉ (s.aborting f n).2) ∧
    ((s.aborting f n).1.step (f n)).2 = [.returned (.ok .done)] ∧
    (s.aborting f (n + 1)).1.lifecycle = .ready ∧ (s.aborting f (n + 1)).1.wait = .nothing

variable {s : Session} {f : ℕ → Event}

/-- **A session that is shut leaves its transaction.** -/
theorem Shut.leaves (h : s.Shut) (hl : s.lifecycle = .inTransaction) (hwait : s.wait = .nothing)
    (hlive : s.isWorkerGone = false) (hc : 0 < s.config.queueCapacity) (hf : Lively f) :
    s.Leaves f := by
  obtain ⟨err, herr⟩ := Option.ne_none_iff_exists'.mp h.fatal
  obtain ⟨heffects, r, k, hwithdraws⟩ := withdraws_called h herr hl hwait hlive hc .abort
  obtain ⟨n, -, hfails, hends, hready, hnothing⟩ := hwithdraws.resolves hf
  -- the call itself has no effect
  have haborting : ∀ m, s.aborting f m = (s.step (.called (.finish .abort))).1.during f m := by
    intro m
    simp [aborting, during, Session.run, heffects]
  rw [← haborting] at hfails hends hready hnothing
  refine ⟨n, fun res hres => ?_, hends, hready, hnothing⟩
  obtain ⟨t, ht⟩ := hfails _ hres
  cases ht

/-! ### What is recorded lasts -/

/-- The losses of authority of this kind, and no others, are recorded by a
session that starts at `s₀`, and from then on it has no authority. Nobody calls a
session that its owner has given up. -/
structure Latches (s₀ : Session) (loss : Session → Event → Prop) : Prop where
  /-- The worker and the session record exactly these. -/
  recorded : ∀ es e, ((s₀.run es).1.step e).1.shared.fatal ≠ none ↔
    (s₀.run es).1.shared.fatal ≠ none ∨ loss (s₀.run es).1 e
  /-- Nothing is enrolled and nothing is appended. -/
  silent : ∀ es e fs, loss (s₀.run es).1 e → writes ((s₀.run es).1.run (e :: fs)).2 = []
  /-- No transaction begins. -/
  unbegun : ∀ es e fs g, .abandoned ∉ es ++ e :: fs → loss (s₀.run es).1 e →
    ¬ (s₀.run (es ++ e :: fs)).1.Begins g
  /-- An abort in a transaction succeeds if the worker lives. -/
  leaves : ∀ es e fs, .abandoned ∉ es ++ e :: fs → loss (s₀.run es).1 e →
    (s₀.run (es ++ e :: fs)).1.lifecycle = .inTransaction →
    (s₀.run (es ++ e :: fs)).1.wait = .nothing →
    (s₀.run (es ++ e :: fs)).1.isWorkerGone = false →
      ∀ f, Lively f → (s₀.run (es ++ e :: fs)).1.Leaves f

theorem capacity_pos {config : SessionConfig} {connected : Bool}
    (h : Session.build config connected = .ok s) : 0 < s.config.queueCapacity := by
  obtain ⟨hv, -, rfl⟩ := Session.build_eq_ok_iff.mp h
  refine Nat.pos_of_ne_zero fun hzero => ?_
  rw [SessionConfig.validate_ok_iff, SessionConfig.fault?, if_pos hzero] at hv
  repeat' split at hv
  all_goals cases hv

/-- The loss shuts a session that its owner has kept. -/
theorem shut_run {config : SessionConfig} {connected : Bool}
    (h : Session.build config connected = .ok s) {es fs : List Event} {e : Event}
    (ha : .abandoned ∉ es ++ e :: fs) (hn : (s.run es).1.Notes e) :
    (s.run (es ++ e :: fs)).1.Shut := by
  have hes : Event.abandoned ∉ es := fun he => ha (List.mem_append_left _ he)
  obtain ⟨own, work, hcoupled⟩ := ((Accounted.start h).run hes).coupled
  have hrun := (shut_of_notes hcoupled hn).run fs
  rw [run_append]
  exact hrun

/-- Of the other losses nothing is kept. -/
theorem unrecorded_of_overlooks {e : Event} (h : s.Overlooks e) : ∃ o back, s.wait = .finish o back ∧
    (s.step e).1 = { s with lifecycle := back, wait := .nothing } := by
  obtain ⟨x, id, o, err, hh, herr⟩ := h
  obtain ⟨rfl, -, back, hw⟩ := hh.finish
  refine ⟨o, back, hw, ?_⟩
  have hstep : s.step (.answered (.error err)) = s.finishRefused back err := by
    simp only [step, answered, hw]
  rw [hstep]
  rcases herr with ⟨y, n, rfl⟩ | ⟨y, p, rfl⟩ <;> rfl

/-- **Which losses of authority are latched.** A session records a loss that its
worker hears of, and that a newer identity exists when its transaction cannot be
ended; those last. Any other loss is the refusal of an end for an epoch or a
producer that is not the transactional id's: of that nothing is kept, and the
session goes back to where it stood. -/
theorem latches {config : SessionConfig} {connected : Bool}
    (h : Session.build config connected = .ok s) :
    s.Latches Session.Notes ∧
      ∀ es e, (s.run es).1.Loses e ↔ (s.run es).1.Notes e ∨ ((s.run es).1.Overlooks e ∧
        ∃ o back, (s.run es).1.wait = .finish o back ∧
          ((s.run es).1.step e).1 = { (s.run es).1 with lifecycle := back, wait := .nothing }) := by
  refine ⟨⟨fun es e => (halts_step _ e).fatal, fun es e fs hn => ?_, fun es e fs g ha hn => ?_,
    fun es e fs ha hn hl hw hlive f hf => ?_⟩, fun es e => ?_⟩
  · have hfatal := (halts_step (s.run es).1 e).fatal.mpr (Or.inr hn)
    have hstep := (halts_step (s.run es).1 e).silent hfatal
    have hrest := silent_run fs _ hfatal
    simp only [Session.run, writes_append, hstep, hrest, List.append_nil]
  · exact (shut_run h ha hn).not_begins g
  · have hcapacity : 0 < (s.run (es ++ e :: fs)).1.config.queueCapacity := by
      rw [config_run]
      exact capacity_pos h
    exact (shut_run h ha hn).leaves hl hw hlive hcapacity hf
  · rw [loses_iff]
    refine or_congr_right ⟨fun ho => ⟨ho, ?_⟩, fun ho => ho.1⟩
    exact unrecorded_of_overlooks ho

/-- The identity of a session is superseded, and an append is refused for it. -/
def superseded : List Event := [
  .called .init, .answered (.ok (.identity ⟨1000, 0⟩)), .called .begin, .round 1,
  .called (.send (Scene.draftFor 0) ⟨0, .future⟩ 0),
  .answered (.ok (.partitions [⟨"T", 0, none⟩])), .round 1, .delivered (.ok .enrolled)]

/-- Rounds and looks by turns. -/
def byTurns (n : ℕ) : Event := if n % 2 = 0 then .round 1 else .woken

theorem lively_byTurns : Lively byTurns where
  again := fun k n => by
    cases k with
    | round => exact ⟨2 * n, by omega, by simp [byTurns, Lack.Meets]⟩
    | wake => exact ⟨2 * n + 1, by omega, by simp [byTurns, Lack.Meets, Nat.add_mod]⟩
  lives := fun n => by
    unfold byTurns
    split <;> simp

/-- The append is refused, and the session leaves its transaction. -/
theorem latches_superseded : Session.build Scene.settings true = .ok (fresh Scene.settings) ∧
    ((fresh Scene.settings).run superseded).1.Notes (.delivered (.error (.fenced "tx" 0 1))) ∧
    ((fresh Scene.settings).run (superseded ++ [.delivered (.error (.fenced "tx" 0 1))])).1.Leaves
      byTurns := by
  have hlatches := (latches build_settings).1
  have hnotes : ((fresh Scene.settings).run superseded).1.Notes
      (.delivered (.error (.fenced "tx" 0 1))) := by
    rw [notes_delivered rfl]
    exact ⟨_, _, rfl, rfl, rfl⟩
  exact ⟨build_settings, hnotes, hlatches.leaves superseded _ [] (by simp [superseded]) hnotes rfl rfl
    rfl byTurns lively_byTurns⟩

/-- A session resumes an identity that the broker has never given out, and is
refused when it aborts. -/
def resumesUnknown : List Event := [.called (.resume 7 0), .called (.finish .abort)]

/-- The loss of authority is not recorded, and a transaction begins. -/
theorem latches_overlooked : Session.build Scene.settings true = .ok (fresh Scene.settings) ∧
    ((Broker.start .default).handle .zero (.finish "tx" ⟨7, 0⟩ .abort)).2 =
      .error (.unmappedProducer "tx" 7) ∧
    ((fresh Scene.settings).run resumesUnknown).1.Loses
      (.answered (.error (.unmappedProducer "tx" 7))) ∧
    ((fresh Scene.settings).run
      (resumesUnknown ++ [.answered (.error (.unmappedProducer "tx" 7))])).1.Begins (.called .begin) ∧
    ¬ (fresh Scene.settings).Latches Session.Loses := by
  have hloses : ((fresh Scene.settings).run resumesUnknown).1.Loses
      (.answered (.error (.unmappedProducer "tx" 7))) :=
    ⟨_, _, .own (.finish "tx" ⟨7, 0⟩ .abort) _ rfl, Or.inr ⟨_, _, _, rfl⟩, rfl⟩
  have hbegins : ((fresh Scene.settings).run
      (resumesUnknown ++ [.answered (.error (.unmappedProducer "tx" 7))])).1.Begins
        (.called .begin) := ⟨Or.inl rfl, .done, List.mem_singleton_self _⟩
  refine ⟨build_settings, by decide +kernel, hloses, hbegins, fun hlatches => ?_⟩
  exact hlatches.unbegun resumesUnknown _ [] _ (by simp [resumesUnknown]) hloses hbegins

end Session
end FencedLog
