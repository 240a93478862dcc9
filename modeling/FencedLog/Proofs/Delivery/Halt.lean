/-
# A worker after a terminal error

A worker records a refusal that shows that its identity has lost its authority,
and nothing else (`Delivery.Halts`). From then on it asks for nothing: it fails
the records that it has and those of its later rounds, and acts on the
barriers. A round still takes something from a queue that is not empty.

Key definition: `Delivery.Halts`.
Key theorems: `Delivery.halts_round`, `Delivery.halts_answered`,
`Delivery.round_halted`.
-/
import FencedLog.Proofs.Scene.Coupled

namespace FencedLog

theorem Worker.reached_phase (w : Worker) (barrier : Option Barrier) :
    (w.reached barrier).phase = .idle := by
  cases barrier with
  | none => rfl
  | some b => cases b <;> rfl

theorem Worker.reached_queue (w : Worker) (barrier : Option Barrier) :
    (w.reached barrier).queue = w.queue := by
  cases barrier with
  | none => rfl
  | some b => cases b <;> rfl

/-- A flush is reached, and nothing else is heard of. -/
theorem Worker.reached_flushed (w : Worker) (barrier : Option Barrier) :
    (w.reached barrier).flushed = (w.flushed || decide (barrier = some .flush)) := by
  cases barrier with
  | none => simp [reached]
  | some b => cases b <;> simp [reached]

/-- A worker waits for no answer when it is idle, and when it has ended. -/
theorem Worker.request?_eq_none {w : Worker} :
    w.request? = none ↔ w.phase = .idle ∨ w.phase = .stopped := by
  unfold request?
  split <;> simp_all

theorem Worker.request?_reached (w : Worker) (barrier : Option Barrier) :
    (w.reached barrier).request? = none :=
  request?_eq_none.mpr (Or.inl (w.reached_phase barrier))

namespace Delivery

/-- What comes of a move. A terminal error is known afterwards if and only if it
was known before or is noted now; then nothing is asked, and the worker waits
for no answer. The first one stays, and a worker that rests acknowledges nothing
any more. -/
structure Halts (d : Delivery) (noted : Prop) (r : Delivery × List Deed) : Prop where
  fatal : r.1.shared.fatal ≠ none ↔ d.shared.fatal ≠ none ∨ noted
  keeps : d.shared.fatal ≠ none → r.1.shared.fatal = d.shared.fatal
  silent : r.1.shared.fatal ≠ none → requests r.2 = []
  idles : r.1.shared.fatal ≠ none → noted ∨ d.worker.request? = none → r.1.worker.request? = none
  acknowledged : d.shared.fatal ≠ none → d.worker.request? = none →
    r.1.shared.counters.acknowledged = d.shared.counters.acknowledged

variable {d : Delivery}

/-- Nothing happens. -/
theorem halts_same (d : Delivery) {noted : Prop} (h : ¬ noted) : d.Halts noted (d, []) :=
  ⟨by simp [h], fun _ => rfl, fun _ => rfl, fun _ hi => hi.resolve_left h, fun _ _ => rfl⟩

/-- To append the next batch records no error. After a terminal error the worker
acts on the barrier instead. -/
theorem appendNext_halted (barrier : Option Barrier) : ∀ (batches : List (Batch Load)) (d : Delivery),
    (d.appendNext barrier batches).1.shared.fatal = d.shared.fatal ∧
      (d.shared.fatal ≠ none → requests (d.appendNext barrier batches).2 = [] ∧
        (d.appendNext barrier batches).1.worker = d.worker.reached barrier)
  | [], d => by
    rw [appendNext]
    exact ⟨congrArg Shared.fatal (reach_shared d barrier), fun _ => ⟨rfl, reach_worker d barrier⟩⟩
  | batch :: rest, d => by
    rw [appendNext]
    split
    · rename_i e he
      obtain ⟨hfatal, hrest⟩ := appendNext_halted barrier rest
        { d with shared := d.shared.countFailed batch.items.length }
      refine ⟨hfatal, fun hf => ?_⟩
      obtain ⟨hasks, hworker⟩ := hrest hf
      exact ⟨by rw [requests_append, requests_failAll, hasks, List.nil_append], hworker⟩
    · rename_i hn
      exact ⟨rfl, fun hf => absurd hn hf⟩

/-- A refusal does not replace the error that is known. -/
theorem fatal_refused (e : BrokerError) (h : d.shared.fatal ≠ none) :
    (d.refused e).1.shared.fatal = d.shared.fatal := by
  obtain ⟨err, herr⟩ := Option.ne_none_iff_exists'.mp h
  unfold refused
  cases e <;> dsimp only <;> split <;> simp [Shared.latch, Shared.forget, herr]

/-- An answer is acted on, and the next batch is appended. -/
theorem halts_appendNext (d₀ : Delivery) {noted : Prop} (barrier : Option Barrier)
    (batches : List (Batch Load)) {before : List Deed} (hb : requests before = [])
    (hf : d.shared.fatal ≠ none ↔ d₀.shared.fatal ≠ none ∨ noted)
    (hk : d₀.shared.fatal ≠ none → d.shared.fatal = d₀.shared.fatal)
    (hq : d₀.worker.request? ≠ none) :
    d₀.Halts noted ((d.appendNext barrier batches).1, before ++ (d.appendNext barrier batches).2) := by
  obtain ⟨hfatal, hhalted⟩ := appendNext_halted barrier batches d
  refine ⟨by rw [hfatal, hf], fun h => hfatal.trans (hk h), fun h => ?_, fun h _ => ?_,
    fun _ hn => absurd hn hq⟩
  · rw [requests_append, hb, (hhalted (hfatal ▸ h)).1, List.nil_append]
  · rw [(hhalted (hfatal ▸ h)).2, Worker.request?_reached]

/-- After a terminal error an idle worker takes the front of its queue, fails
the records with that error and acts on the barrier. -/
theorem round_halted {e : DeliveryError} (hi : d.worker.phase = .idle) (he : d.shared.fatal = some e)
    (visible : Nat) :
    ∃ (pending : List Pending) (barrier : Option Barrier) (rest : List Message),
      d.worker.queue = pending.map .send ++ (barrier.map .barrier).toList ++ rest ∧
      (d.worker.queue ≠ [] → rest.length < d.worker.queue.length) ∧
      (d.round visible).1.worker = ({ d.worker with queue := rest } : Worker).reached barrier ∧
      (d.round visible).1.shared = d.shared.countFailed pending.length ∧
      (d.round visible).2 = failAll e (pending.map (·.ticket)) := by
  obtain ⟨barrier, rest, hqueue, hless, hround⟩ := round_taken hi visible
  refine ⟨d.taken visible, barrier, rest, hqueue, hless, ?_⟩
  rw [hround]
  simp only
  split
  · rename_i hnil
    rw [List.isEmpty_iff.mp hnil]
    exact ⟨reach_worker _ barrier, reach_shared _ barrier, rfl⟩
  · simp only [deliver, he]
    exact ⟨reach_worker _ barrier, reach_shared _ barrier, trivial⟩

theorem halts_round (d : Delivery) (visible : Nat) : d.Halts False (d.round visible) := by
  rcases goes_round d visible with ⟨-, he⟩ | ⟨hidle, pending, barrier, rest, q, -, hgoes, -, -⟩
  · rw [he]
    exact halts_same d id
  · refine ⟨by rw [hgoes.fatal, or_false], fun _ => hgoes.fatal, fun hf => ?_, fun hf _ => ?_,
      fun hf _ => ?_⟩
    · rw [hgoes.asks, hgoes.silent hf]
      rfl
    · have hnext := hgoes.next
      rw [hgoes.silent hf] at hnext
      generalize (d.round visible).1.worker = w at hnext
      cases hnext
      exact Worker.request?_reached _ barrier
    · obtain ⟨e, he⟩ := Option.ne_none_iff_exists'.mp hf
      obtain ⟨_, _, _, -, -, -, hshared, -⟩ := round_halted (d := d) hidle he visible
      rw [hshared]
      rfl

/-- Of all answers only the refusals of a lost authority are noted. -/
theorem halts_answered (d : Delivery) (answer : Answer) :
    d.Halts (∃ q e, d.worker.request? = some q ∧ answer = .error e ∧ e.isFencing = true)
      (d.answered answer) := by
  have refused : ∀ {q : Request} (e : BrokerError), d.worker.request? = some q →
      ((∃ q e', d.worker.request? = some q ∧ (.error e : Answer) = .error e' ∧ e'.isFencing = true) ↔
        e.isFencing = true) := by
    intro q e hq
    refine ⟨?_, fun he => ⟨q, e, hq, rfl, he⟩⟩
    rintro ⟨-, e', -, he, hfencing⟩
    rwa [Except.error.inj he]
  have busy : ∀ {phase}, d.worker.phase = phase → phase ≠ .idle → phase ≠ .stopped →
      d.worker.request? ≠ none := by
    rintro phase rfl hi hs hn
    exact (Worker.request?_eq_none.mp hn).elim hi hs
  unfold answered
  split
  · rename_i hp
    have hnil : requests [] = [] := rfl
    exact halts_appendNext d _ _ hnil (by simp) (fun _ => rfl) (busy hp (by simp) (by simp))
  · rename_i fresh batches barrier e hp
    obtain ⟨hw, -, hf⟩ := refused_spec d e
    have hnoted := refused e (by simp only [Worker.request?, hp]; rfl)
    refine ⟨?_, fun hk => ?_, fun _ => requests_failAll _ _, fun _ _ => ?_,
      fun _ hn => absurd hn (busy hp (by simp) (by simp))⟩
    · rw [hnoted, ← hf]
      simp only [reach_shared]
      exact Iff.rfl
    · simp only [reach_shared]
      exact fatal_refused e hk
    · simp only [reach_worker, Worker.request?_reached]
  · rename_i batch rest barrier base hp
    exact halts_appendNext d _ _ (requests_placeAll _ _ _) (by simp [Shared.countAcknowledged])
      (fun _ => rfl) (busy hp (by simp) (by simp))
  · rename_i batch rest barrier e hp
    have hnoted := refused e (by simp only [Worker.request?, hp]; rfl)
    refine halts_appendNext d _ _ (requests_failAll _ _) ?_ (fatal_refused e)
      (busy hp (by simp) (by simp))
    rw [hnoted, ← (refused_spec d e).2.2]
    exact Iff.rfl
  · rename_i hn₁ hn₂ hn₃ hn₄
    refine halts_same d ?_
    rintro ⟨q, e, hq, rfl, -⟩
    unfold Worker.request? at hq
    split at hq
    · rename_i fresh batches barrier hp
      exact hn₂ _ _ _ _ hp rfl
    · rename_i batch rest barrier hp
      exact hn₄ _ _ _ _ hp rfl
    all_goals cases hq

theorem halts_kill (d : Delivery) : d.Halts False d.kill where
  fatal := by simp [kill]
  keeps := fun _ => rfl
  silent := fun _ => by simp [kill, requests, List.filterMap_map]
  idles := fun _ _ => rfl
  acknowledged := fun _ _ => rfl

theorem halts_drained (d : Delivery) : d.Halts False (d.drained, []) := by
  unfold drained
  split
  · exact ⟨by simp [setPhase], fun _ => rfl, fun _ => rfl, fun _ _ => rfl, fun _ _ => rfl⟩
  · exact halts_same d id

end Delivery
end FencedLog
