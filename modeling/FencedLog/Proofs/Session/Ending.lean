/-
# The end of a transaction after a terminal error

A session that has lost its authority cannot commit the transaction it is in,
and can leave it without asking anyone. Either way it flushes first: the flush
waits for room, then for the worker, which fails what is before it. A worker
that takes rounds again and again comes to it, and so the operation ends
(`Session.Shut.resolves`), with nothing but failed sends on the way.

Key definitions: `Session.Lively`, `Session.doom`, `Session.Withdraws`,
`Session.Resolves`.
Key theorems: `Session.withdraws_step`, `Session.withdraws_called`,
`Session.withdraws_running`, `Session.Withdraws.resolves`.
-/
import FencedLog.Proofs.Progress
import FencedLog.Proofs.Session.Halt

namespace FencedLog
namespace Session

/-- What the end of a transaction needs next. -/
inductive Lack where
  | round
  | wake

def Lack.Meets : Lack → Event → Prop
  | .round, .round _ => True
  | .wake, .woken => True
  | _, _ => False

/-- The worker lives and takes rounds again and again, and the owner keeps the
session, which looks again and again for what it waits for. -/
structure Lively (f : ℕ → Event) : Prop where
  again : ∀ (k : Lack) (n : ℕ), ∃ m, n ≤ m ∧ k.Meets (f m)
  lives : ∀ n, f n ≠ .died ∧ f n ≠ .drained ∧ f n ≠ .abandoned

/-- The first `n` events follow: the session then, and all effects in order. -/
def during (s : Session) (f : ℕ → Event) (n : ℕ) : Session × List Effect :=
  s.run ((List.range n).map f)

theorem during_succ (s : Session) (f : ℕ → Event) (n : ℕ) : s.during f (n + 1) =
    (((s.during f n).1.step (f n)).1, (s.during f n).2 ++ ((s.during f n).1.step (f n)).2) := by
  unfold during
  rw [List.range_succ, List.map_append, run_append]
  simp [Session.run]

/-- What a commit or an abort returns after the terminal error `err`, and where
the session stands then. -/
def doom (err : DeliveryError) : Outcome → Except SessionError Report × Lifecycle
  | .commit => (.error err.forSession, .inTransaction)
  | .abort => (.ok .done, .ready)

/-- The effect is a send that fails with `err`. -/
def Fails (err : DeliveryError) (x : Effect) : Prop := ∃ t, x = .deed (.completed t (.error err))

/-- The running operation comes to its end. Until then the session is in its
transaction, and nothing happens but that sends fail. -/
def Resolves (s : Session) (err : DeliveryError) (o : Outcome) (f : ℕ → Event) : Prop :=
  ∃ n, (∀ m, m ≤ n → (s.during f m).1.lifecycle = .inTransaction) ∧
    (∀ x ∈ (s.during f n).2, Fails err x) ∧
    ((s.during f n).1.step (f n)).2 = [.returned (doom err o).1] ∧
    (s.during f (n + 1)).1.lifecycle = (doom err o).2 ∧
    (s.during f (n + 1)).1.wait = .nothing

/-- How far a session has come with the end of its transaction, how much it
still needs at most, and what it needs next. -/
inductive Withdrawal (s : Session) (o : Outcome) (w : Worker) : ℕ → Lack → Prop
  /-- The queue is full. -/
  | crowded (hw : s.wait = .room (.barrier .flush) (.flush (.finish o)))
      (hq : s.config.queueCapacity ≤ w.queue.length) : Withdrawal s o w (w.queue.length + 3) .round
  | roomy (hw : s.wait = .room (.barrier .flush) (.flush (.finish o)))
      (hq : w.queue.length < s.config.queueCapacity) : Withdrawal s o w (w.queue.length + 3) .wake
  /-- The flush is in the queue. -/
  | flushing (hw : s.wait = .flush (.finish o)) (hf : w.flushed = false)
      (hq : .barrier .flush ∈ w.queue) : Withdrawal s o w (w.queue.length + 1) .round
  | flushed (hw : s.wait = .flush (.finish o)) (hf : w.flushed = true) :
      Withdrawal s o w 1 .wake

/-- A session that is shut is about to end its transaction. -/
structure Withdraws (s : Session) (err : DeliveryError) (o : Outcome) (r : ℕ) (k : Lack) : Prop where
  shut : s.Shut
  known : s.shared.fatal = some err
  inside : s.lifecycle = .inTransaction
  capacity : 0 < s.config.queueCapacity
  worker : ∃ w, s.worker = some w ∧ w.phase = .idle ∧ s.Withdrawal o w r k

/-- The operation goes on after the event `e`: it needs less, or the event was
not what it needs. -/
def Proceeds (err : DeliveryError) (o : Outcome) (r : ℕ) (k : Lack) (e : Event)
    (t : Session × List Effect) : Prop :=
  (∀ x ∈ t.2, Fails err x) ∧ ∃ r' k', t.1.Withdraws err o r' k' ∧
    (r' < r ∨ (r' = r ∧ k' = k ∧ ¬ k.Meets e))

variable {s : Session} {err : DeliveryError} {o : Outcome} {w : Worker} {r : ℕ} {k : Lack}
  {f : ℕ → Event}

theorem fails_failAll (tickets : List Ticket) :
    ∀ x ∈ (failAll err tickets).map Effect.deed, Fails err x := by
  simp [failAll, Fails]

/-- The worker of a session that is shut rests. -/
theorem Shut.worker (h : s.Shut) (hlive : s.isWorkerGone = false) :
    ∃ w, s.worker = some w ∧ w.phase = .idle := by
  cases hw : s.worker with
  | none => simp [isWorkerGone, hw] at hlive
  | some w =>
    refine ⟨w, rfl, (Worker.request?_eq_none.mp (h.idles w hw)).resolve_right fun hp => ?_⟩
    simp [isWorkerGone, hw, Delivery.isStopped, hp] at hlive

/-- The flush is queued, or waits for room. -/
theorem withdraws_push (h : s.Shut) (hk : s.shared.fatal = some err) (hl : s.lifecycle = .inTransaction)
    (hc : 0 < s.config.queueCapacity) (hw : s.worker = some w) (hp : w.phase = .idle) :
    (s.push (.barrier .flush) (.flush (.finish o))).2 = [] ∧ ∃ r k,
      (s.push (.barrier .flush) (.flush (.finish o))).1.Withdraws err o r k ∧
      (w.queue.length < s.config.queueCapacity → r < w.queue.length + 3) := by
  have hshut := (halts_push s (.barrier .flush) (.flush (.finish o)) fun _ h => nomatch h).shut h
  by_cases hroom : w.queue.length < s.config.queueCapacity
  · have hpush : s.push (.barrier .flush) (.flush (.finish o)) =
        ({ s with
          worker := some (Stance.queue w (.barrier .flush))
          wait := .flush (.finish o) }, []) := by
      simp only [push, hw, hp, hroom, ↓reduceIte, pushed, Stance.queue]
    rw [hpush] at hshut ⊢
    refine ⟨rfl, ?_⟩
    cases hf : w.flushed with
    | true =>
      exact ⟨1, .wake, ⟨hshut, hk, hl, hc, _, rfl, hp, .flushed rfl hf⟩, fun _ => by omega⟩
    | false =>
      refine ⟨_, .round, ⟨hshut, hk, hl, hc, _, rfl, hp, .flushing rfl hf ?_⟩, fun _ => ?_⟩
      · simp [Stance.queue]
      · simp [Stance.queue]
  · have hpush : s.push (.barrier .flush) (.flush (.finish o)) =
        ({ s with wait := .room (.barrier .flush) (.flush (.finish o)) }, []) := by
      simp only [push, hw, hp, hroom, ↓reduceIte]
    rw [hpush] at hshut ⊢
    exact ⟨rfl, _, .round, ⟨hshut, hk, hl, hc, w, hw, hp, .crowded rfl (Nat.not_lt.mp hroom)⟩,
      fun hlt => absurd hlt hroom⟩

/-- A round brings the flush nearer, or makes room for it. -/
theorem withdraws_round (h : s.Withdraws err o r k) (visible : ℕ) :
    Proceeds err o r k (.round visible) (s.step (.round visible)) := by
  obtain ⟨w, hw, hp, hstage⟩ := h.worker
  have hhalts := halts_step s (.round visible)
  have hshut := hhalts.shut h.shut
  have hknown := (hhalts.keeps h.shut.fatal).trans h.known
  obtain ⟨pending, barrier, rest, hqueue, hless, hworker, -, hdeeds⟩ :=
    Delivery.round_halted (d := ⟨w, s.shared⟩) hp h.known visible
  have hstep : s.step (.round visible) =
      ({ s with
        worker := some (Delivery.round ⟨w, s.shared⟩ visible).1.worker
        shared := (Delivery.round ⟨w, s.shared⟩ visible).1.shared },
        (Delivery.round ⟨w, s.shared⟩ visible).2.map .deed) := by
    simp only [step, deliver, hw]
  rw [hworker, hdeeds] at hstep
  rw [hstep] at hshut hknown ⊢
  refine ⟨fails_failAll _, ?_⟩
  generalize hw' : ({ w with queue := rest } : Worker).reached barrier = w' at hshut hknown ⊢
  have hp' : w'.phase = .idle := hw' ▸ Worker.reached_phase _ _
  have hrest : w'.queue = rest := hw' ▸ Worker.reached_queue _ _
  have hflushed : w'.flushed = (w.flushed || decide (barrier = some .flush)) :=
    hw' ▸ Worker.reached_flushed _ _
  have again : ∀ {r' k'}, Withdrawal { s with
        worker := some w', shared := (Delivery.round ⟨w, s.shared⟩ visible).1.shared } o w' r' k' →
      Withdraws { s with
        worker := some w', shared := (Delivery.round ⟨w, s.shared⟩ visible).1.shared } err o r' k' :=
    fun hst => ⟨hshut, hknown, h.inside, h.capacity, w', rfl, hp', hst⟩
  have hle : rest.length ≤ w.queue.length := by
    have := congrArg List.length hqueue
    simp only [List.length_append] at this
    omega
  cases hstage with
  | crowded hwait hq =>
    -- a full queue is not empty
    have hlt : rest.length < w.queue.length := hless fun hnil => by
      have hcapacity := h.capacity
      simp only at hnil
      rw [hnil, List.length_nil] at hq
      omega
    by_cases hroom : w'.queue.length < s.config.queueCapacity
    · exact ⟨_, .wake, again (.roomy hwait hroom), Or.inl (by rw [hrest]; omega)⟩
    · exact ⟨_, .round, again (.crowded hwait (Nat.not_lt.mp hroom)), Or.inl (by rw [hrest]; omega)⟩
  | roomy hwait hq =>
    have hq' : w'.queue.length < s.config.queueCapacity := by
      rw [hrest]
      omega
    refine ⟨_, .wake, again (.roomy hwait hq'), ?_⟩
    rw [hrest]
    rcases Nat.lt_or_eq_of_le hle with hlt | heq
    · exact Or.inl (by omega)
    · exact Or.inr ⟨by rw [heq], rfl, fun hm => hm⟩
  | flushing hwait hf hq =>
    have hlt : rest.length < w.queue.length := hless (List.ne_nil_of_mem hq)
    by_cases hflush : barrier = some .flush
    · have hf' : w'.flushed = true := by simp [hflushed, hflush]
      exact ⟨1, .wake, again (.flushed hwait hf'), Or.inl (by omega)⟩
    · have hf' : w'.flushed = false := by simp [hflushed, hf, hflush]
      -- what was taken is not the flush
      have hq' : .barrier .flush ∈ w'.queue := by
        rw [hrest]
        simp only at hqueue
        rw [hqueue, List.mem_append, List.mem_append] at hq
        rcases hq with (hq | hq) | hq
        · simp at hq
        · simp only [Option.mem_toList, Option.map_eq_some_iff, Message.barrier.injEq] at hq
          obtain ⟨b, hb, rfl⟩ := hq
          exact absurd hb hflush
        · exact hq
      exact ⟨_, .round, again (.flushing hwait hf' hq'), Or.inl (by rw [hrest]; omega)⟩
  | flushed hwait hf =>
    have hf' : w'.flushed = true := by simp [hflushed, hf]
    exact ⟨1, .wake, again (.flushed hwait hf'), Or.inr ⟨rfl, rfl, fun hm => hm⟩⟩

/-- Everything sent before has been completed: the operation ends. -/
theorem finishFlushed_doomed (hk : s.shared.fatal = some err) (o : Outcome) :
    (s.finishFlushed o).2 = [.returned (doom err o).1] ∧
      (s.finishFlushed o).1.lifecycle = (doom err o).2 ∧ (s.finishFlushed o).1.wait = .nothing := by
  cases o <;> simp only [finishFlushed, hk] <;> exact ⟨rfl, rfl, rfl⟩

/-- An event ends the operation, or brings it further, or leaves it where it
is. -/
theorem withdraws_step (h : s.Withdraws err o r k) {e : Event} (hd : e ≠ .died) (hdr : e ≠ .drained)
    (ha : e ≠ .abandoned) :
    ((s.step e).2 = [.returned (doom err o).1] ∧ (s.step e).1.lifecycle = (doom err o).2 ∧
      (s.step e).1.wait = .nothing) ∨ Proceeds err o r k e (s.step e) := by
  obtain ⟨w, hw, hp, hstage⟩ := id h.worker
  have stay : s.step e = (s, []) → ¬ k.Meets e → Proceeds err o r k e (s.step e) := by
    intro hstep hm
    rw [hstep]
    exact ⟨by simp, r, k, h, Or.inr ⟨rfl, rfl, hm⟩⟩
  have hwait : s.wait = .room (.barrier .flush) (.flush (.finish o)) ∨
      s.wait = .flush (.finish o) := by
    cases hstage with
    | crowded hwait => exact Or.inl hwait
    | roomy hwait => exact Or.inl hwait
    | flushing hwait => exact Or.inr hwait
    | flushed hwait => exact Or.inr hwait
  cases e with
  | died => exact absurd rfl hd
  | drained => exact absurd rfl hdr
  | abandoned => exact absurd rfl ha
  | called op =>
    refine Or.inr (stay ?_ (by cases k <;> exact id))
    rcases hwait with hwait | hwait <;> simp only [step, hwait]
  | answered answer =>
    refine Or.inr (stay ?_ (by cases k <;> exact id))
    rcases hwait with hwait | hwait <;> simp only [step, answered, hwait]
  | outwaited =>
    refine Or.inr (stay ?_ (by cases k <;> exact id))
    rcases hwait with hwait | hwait <;> simp only [step, outwaited, hwait]
  | delivered answer =>
    -- the worker waits for no answer
    refine Or.inr (stay ?_ (by cases k <;> exact id))
    rcases Daybook.delivered_unfit ⟨w, s.shared⟩ answer with he | ⟨q, hq, -⟩
    · simp only [step, deliver, hw, he, List.map_nil]
      rw [← hw]
    · have hnone : w.request? = none := h.shut.idles w hw
      rw [show w.request? = _ from hq] at hnone
      cases hnone
  | round visible => exact Or.inr (withdraws_round h visible)
  | woken =>
    cases hstage with
    | crowded hwait hq =>
      refine Or.inr (stay ?_ id)
      have hfull : ¬ w.queue.length < s.config.queueCapacity := Nat.not_lt.mpr hq
      simp only [step, woken, hwait, push, hw, hp, hfull, ↓reduceIte]
      rw [← hwait, ← hw]
    | roomy hwait hq =>
      have hstep : s.step .woken = s.push (.barrier .flush) (.flush (.finish o)) := by
        simp only [step, woken, hwait]
      obtain ⟨heffects, r', k', hpushed, hrank⟩ :=
        withdraws_push h.shut h.known h.inside h.capacity hw hp
      rw [hstep]
      exact Or.inr ⟨by simp [heffects], r', k', hpushed, Or.inl (hrank hq)⟩
    | flushing hwait hf hq =>
      refine Or.inr (stay ?_ id)
      simp [step, woken, hwait, hw, hf, isWorkerGone, Delivery.isStopped, hp]
    | flushed hwait hf =>
      have hstep : s.step .woken = s.finishFlushed o := by
        simp only [step, woken, hwait, hw, hf, ↓reduceIte, Session.flushed]
      rw [hstep]
      exact Or.inl (finishFlushed_doomed h.known o)

/-- The call itself queues the flush, or lets it wait for room. -/
theorem withdraws_called (h : s.Shut) (hk : s.shared.fatal = some err)
    (hl : s.lifecycle = .inTransaction) (hwait : s.wait = .nothing)
    (hlive : s.isWorkerGone = false) (hc : 0 < s.config.queueCapacity) (o : Outcome) :
    (s.step (.called (.finish o))).2 = [] ∧
      ∃ r k, (s.step (.called (.finish o))).1.Withdraws err o r k := by
  obtain ⟨w, hw, hp⟩ := h.worker hlive
  have hcall : s.step (.called (.finish o)) =
      { s with worker := some { w with flushed := false } }.push (.barrier .flush)
        (.flush (.finish o)) := by
    cases o <;> simp only [step, hwait, called, Session.finish, hl, askFlush, hw]
  have hshut : ({ s with worker := some { w with flushed := false } } : Session).Shut := by
    refine ⟨h.fatal, fun w' hw' => ?_, h.unbegun⟩
    rw [← Option.some.inj hw']
    exact h.idles w hw
  obtain ⟨heffects, r, k, hwithdraws, -⟩ := withdraws_push (o := o) hshut hk hl hc rfl hp
  rw [hcall]
  exact ⟨heffects, r, k, hwithdraws⟩

/-- A commit or an abort that is running has its flush in the queue, or waits
for room, or has come to it. -/
theorem withdraws_running {own work : Line} {call : Option Call} (hcoupled : Coupled s.stance own work call)
    (h : s.Shut) (hk : s.shared.fatal = some err) (hlive : s.isWorkerGone = false)
    (hc : 0 < s.config.queueCapacity)
    (hwait : s.wait = .room (.barrier .flush) (.flush (.finish o)) ∨ s.wait = .flush (.finish o)) :
    ∃ r k, s.Withdraws err o r k := by
  obtain ⟨w, hw, hp⟩ := h.worker hlive
  have hshape := (hcoupled.manned w hw).shape
  have inside : s.lifecycle = .inTransaction := by
    rcases hwait with hwait | hwait
    · obtain ⟨op, lc, -, hrun⟩ := hcoupled.running (by simp [stance, hwait])
      rw [show s.stance.wait = _ from hwait] at hrun
      cases hrun with
      | awaiting _ _ hfollows => cases hfollows with | finish _ _ hn => exact hn
    · exact hcoupled.sane.flushing o hwait
  have comes : ∀ {r k}, s.Withdrawal o w r k → ∃ r k, s.Withdraws err o r k := fun hstage =>
    ⟨_, _, h, hk, inside, hc, w, hw, hp, hstage⟩
  rcases hwait with hwait | hwait
  · by_cases hroom : w.queue.length < s.config.queueCapacity
    · exact comes (.roomy hwait hroom)
    · exact comes (.crowded hwait (Nat.not_lt.mp hroom))
  · cases hf : w.flushed with
    | true => exact comes (.flushed hwait hf)
    | false =>
      refine comes (.flushing hwait hf ?_)
      obtain ⟨reset, ps, hagenda, -, -⟩ := hshape.agenda (by rw [hp]; simp)
      have hqueue : w.agenda = w.queue := by simp [Worker.agenda, hp, Phase.barrier]
      rw [← hqueue, hagenda, show s.stance.wait = _ from hwait, hf]
      simp [flushing]

/-- **The operation comes to its end.** -/
theorem Withdraws.resolves (h : s.Withdraws err o r k) (hf : Lively f) : s.Resolves err o f := by
  have next : ∀ n r k, ((s.during f n).1.Withdraws err o r k ∧
        ∀ x ∈ (s.during f n).2, Fails err x) →
      (((s.during f n).1.step (f n)).2 = [.returned (doom err o).1] ∧
        (s.during f (n + 1)).1.lifecycle = (doom err o).2 ∧
        (s.during f (n + 1)).1.wait = .nothing) ∨
      ∃ r' k', ((s.during f (n + 1)).1.Withdraws err o r' k' ∧
        ∀ x ∈ (s.during f (n + 1)).2, Fails err x) ∧
          (r' < r ∨ (r' = r ∧ k' = k ∧ ¬ k.Meets (f n))) := by
    rintro n r k ⟨hw, hr⟩
    obtain ⟨hd, hdr, ha⟩ := hf.lives n
    rw [during_succ]
    rcases withdraws_step hw hd hdr ha with hends | ⟨hfails, r', k', hw', hrank⟩
    · exact Or.inl hends
    · refine Or.inr ⟨r', k', ⟨hw', fun x hx => ?_⟩, hrank⟩
      exact (List.mem_append.mp hx).elim (hr x) (hfails x)
  have hfirst : (s.during f 0).1.Withdraws err o r k ∧ ∀ x ∈ (s.during f 0).2, Fails err x :=
    ⟨h, by simp [during, Session.run]⟩
  obtain ⟨m, -, ⟨hends, hlifecycle, hnothing⟩, hstages⟩ := ends_of_ranked hf.again next hfirst
  obtain ⟨-, -, -, hfails⟩ := hstages m (Nat.zero_le m) (Nat.le_refl m)
  refine ⟨m, fun j hj => ?_, hfails, hends, hlifecycle, hnothing⟩
  obtain ⟨r', k', hw, -⟩ := hstages j (Nat.zero_le j) hj
  exact hw.inside

end Session
end FencedLog
