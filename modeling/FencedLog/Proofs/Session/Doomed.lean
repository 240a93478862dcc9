/-
# What a terminal error leaves of a session

The first terminal error that a session or its worker hears of is the last word
on the session. It stays; nothing is enrolled or appended any more, from the
very event that brought it; no record is acknowledged; no transaction begins;
a commit fails with it, and an abort succeeds without a request
(`Session.Doomed`). A send that is accepted nevertheless fails with the same
error as soon as the worker comes to it: a round takes some messages from the
front of the queue, so a message that has `n` before it is reached by the round
`n + 1` (`Session.fails_front`).

The owner may give the session up before the error comes, or after; its worker
goes on, and what is said of the worker holds all the same.

Key definitions: `Session.Owned`, `Session.Kept`, `Session.Declines`,
`Session.Doomed`.
Key theorems: `Session.shut_of_fatal`, `Session.declines_step`,
`Session.fails_front`, `Session.queued_of_accepted`, `Session.doomed`.
-/
import FencedLog.Proofs.Session.Latch

namespace FencedLog

/-- Whether the worker takes a round. -/
def Event.isRound : Event → Bool
  | .round _ => true
  | _ => false

namespace Session

open Delivery (queued)

/-! ### The owner and the session -/

/-- Nobody calls a session that its owner has given up. -/
def Owned (es : List Event) : Prop :=
  ∀ fs gs, es = fs ++ .abandoned :: gs → ∀ op, .called op ∉ gs

/-- The owner has the session, which is in step with its call; or has given it
up, and calls it no more. The events `es` are to come. -/
inductive Kept (s : Session) (call : Option Call) (es : List Event) : Prop
  | held (own work : Line) (hc : Coupled s.stance own work call) (ho : Owned es)
  | left (hw : s.wait = .nothing) (hn : ∀ op, .called op ∉ es)

variable {s s₀ : Session} {b : Daybook} {call : Option Call} {e : Event} {es fs : List Event}
  {err : DeliveryError} {w w' : Worker} {config : SessionConfig} {connected : Bool}

theorem owned_of_notMem (h : .abandoned ∉ es) : Owned es := by
  rintro fs gs rfl
  simp at h

theorem Owned.front (h : Owned (es ++ fs)) : Owned es := by
  intro as bs hes op hop
  refine h as (bs ++ fs) (by simp [hes]) op (List.mem_append_left fs hop)

theorem Owned.tail (h : Owned (e :: es)) : Owned es := fun fs gs hes =>
  h (e :: fs) gs (by simp [hes])

/-- Once given up, a session does nothing itself. -/
theorem step_left (hw : s.wait = .nothing) (hn : ∀ op, e ≠ .called op) : (s.step e).1.wait = .nothing := by
  have deliver : ∀ f, (s.deliver f).1.wait = .nothing := by
    intro f
    unfold deliver
    split <;> exact hw
  cases e with
  | called op => exact absurd rfl (hn op)
  | answered answer => simp [step, answered, hw]
  | woken => simp [step, woken, hw]
  | outwaited => simp [step, outwaited, hw]
  | abandoned => rfl
  | round visible => exact deliver _
  | delivered answer => exact deliver _
  | drained =>
    rw [step]
    split
    · exact hw
    · exact deliver _
  | died => exact deliver _

theorem Kept.step (h : s.Kept b.call (e :: es)) : (s.step e).1.Kept (b.step s e).call es := by
  cases h with
  | held own work hc ho =>
    by_cases he : e = .abandoned
    · subst he
      exact .left rfl (ho [] es rfl)
    · obtain ⟨own', work', hc'⟩ := Daybook.coupled_step hc he
      exact .held own' work' hc' ho.tail
  | left hw hn =>
    refine .left (step_left hw fun op he => ?_) fun op hop => hn op (List.mem_cons_of_mem e hop)
    exact hn op (he ▸ List.mem_cons_self)

theorem Kept.run : ∀ (es : List Event) {s : Session} {b : Daybook}, s.Kept b.call (es ++ fs) →
    (s.run es).1.Kept (b.run s es).call fs
  | [], _, _, h => h
  | e :: es, s, b, h => Kept.run es (s := (s.step e).1) (b := b.step s e) h.step

theorem kept_build (h : build config connected = .ok s₀) (es : List Event) (ho : Owned (es ++ fs)) :
    (s₀.run es).1.Kept (Daybook.empty.run s₀ es).call fs := by
  obtain ⟨own, work, hc⟩ := (Accounted.start h).coupled
  exact Kept.run es (.held own work hc ho)

/-! ### The error shuts the session -/

theorem Kept.shut (h : s.Kept call (e :: es)) (hn : s.Notes e) : (s.step e).1.Shut := by
  cases h with
  | held own work hc => exact shut_of_notes hc hn
  | left hw hno =>
    -- only the worker can have heard of it
    have hfatal := (halts_step s e).fatal.mpr (Or.inr hn)
    obtain ⟨q, refusal, hh, -⟩ := id hn
    cases hh with
    | own q _ hq => simp [Stance.request?, stance, hw] at hq
    | work w q _ hwk hq =>
      have hd := Delivery.halts_answered ⟨w, s.shared⟩ (.error refusal)
      have hstep : (s.step (.delivered (.error refusal))).1 =
          { s with
            worker := some (Delivery.answered ⟨w, s.shared⟩ (.error refusal)).1.worker
            shared := (Delivery.answered ⟨w, s.shared⟩ (.error refusal)).1.shared } := by
        simp only [Session.step, deliver, hwk]
      rw [hstep] at hfatal ⊢
      refine ⟨hfatal, fun w' hw' => ?_, ?_⟩
      · rw [← Option.some.inj hw']
        exact hd.idles hfatal (Or.inl ((notes_delivered hwk _).mp hn))
      · simp only [hw]
        rfl

/-- **With a terminal error known the worker rests, and no transaction is about
to begin.** -/
theorem shut_of_fatal (h : build config connected = .ok s₀) {es : List Event} (ho : Owned es)
    (hf : (s₀.run es).1.shared.fatal ≠ none) : (s₀.run es).1.Shut := by
  have steps : ∀ (es : List Event) (s : Session) (b : Daybook), s.Kept b.call es →
      (s.shared.fatal ≠ none → s.Shut) → (s.run es).1.shared.fatal ≠ none → (s.run es).1.Shut := by
    intro es
    induction es with
    | nil => exact fun _ _ _ hs => hs
    | cons e es ih =>
      intro s b hk hs
      have hhalts := halts_step s e
      refine ih (s.step e).1 (b.step s e) hk.step fun hf' => ?_
      rcases hhalts.fatal.mp hf' with hbefore | hnotes
      · exact hhalts.shut (hs hbefore)
      · exact hk.shut hnotes
  have hstart : s₀.shared.fatal = none := by
    obtain ⟨-, -, rfl⟩ := build_eq_ok_iff.mp h
    rfl
  exact steps es s₀ .empty (kept_build h [] ho) (fun hne => absurd hstart hne) hf

/-! ### What becomes of the queue -/

/-- What an event does to the messages of a session that is shut, whose worker
is `w`, and what the worker does. -/
inductive Declines (s : Session) (w : Worker) (err : DeliveryError) : Event → Worker → List Deed → Prop
  /-- Messages come to the end of the queue, if at all. -/
  | queues {e : Event} (w' : Worker) (more : List Message) (hp : w'.phase = .idle)
      (hq : w'.queue = w.queue ++ more) (he : e.isRound = false) : Declines s w err e w' []
  /-- A round takes some from its front, and fails the records among them. -/
  | fails (visible : ℕ) (w' : Worker) (taken : List Message) (hp : w'.phase = .idle)
      (hq : w.queue = taken ++ w'.queue) (hne : w.queue ≠ [] → taken ≠ []) :
      Declines s w err (.round visible) w' (failAll err (queued taken))
  /-- The worker ends with nothing to do. -/
  | ends (w' : Worker) (hq : w.queue = []) (hp : w'.phase = .stopped) (hq' : w'.queue = []) :
      Declines s w err .drained w' []
  /-- A close has waited long enough: the worker is killed. -/
  | killed (w' : Worker) (hwait : s.wait = .drain) (hp : w'.phase = .stopped) (hq' : w'.queue = []) :
      Declines s w err .outwaited w' ((queued w.queue).map .dropped)

theorem deeds_map : ∀ ds : List Deed, deeds (ds.map .deed) = ds
  | [] => rfl
  | d :: ds => congrArg (d :: ·) (deeds_map ds)

/-- A turn of a session with a live worker leaves the worker where it is, and
does nothing to a send but queue it. -/
theorem queue_turn {v v' : Stance} {own work : Line} {effects : List Effect} (hc : Coupled v own work call)
    (ht : v.Turn e v' effects) (hw : v.worker = some w) (hp : w.phase ≠ .stopped) :
    deeds effects = [] ∧
      ∃ w' more, v'.worker = some w' ∧ w'.phase = w.phase ∧ w'.queue = w.queue ++ more := by
  have same : v'.worker = v.worker →
      ∃ w' more, v'.worker = some w' ∧ w'.phase = w.phase ∧ w'.queue = w.queue ++ more :=
    fun hsame => ⟨w, [], hsame.trans hw, rfl, (List.append_nil _).symm⟩
  cases ht with
  | acquired id inherited w' _ h =>
    -- who takes an identity has had no worker
    have hl : v.lifecycle = .uninitialized := by
      rcases h with ⟨hwait, -⟩ | ⟨-, hl, -⟩
      · obtain ⟨op, lc, -, hrun⟩ := hc.running (by simp [hwait])
        rw [hwait] at hrun
        cases hrun with | identity hn => exact hn
      · exact hl
    rw [hc.fresh hl] at hw
    cases hw
  | abandoned p h hgone => exact absurd (hgone w hw) hp
  | sent p w₀ h hw₀ =>
    obtain rfl : w = w₀ := Option.some.inj (hw.symm.trans hw₀)
    exact ⟨rfl, _, [_], rfl, rfl, rfl⟩
  | begun w₀ started h hw₀ =>
    obtain rfl : w = w₀ := Option.some.inj (hw.symm.trans hw₀)
    exact ⟨rfl, _, [_], rfl, rfl, rfl⟩
  | flushing w₀ next flushed h hw₀ =>
    obtain rfl : w = w₀ := Option.some.inj (hw.symm.trans hw₀)
    exact ⟨rfl, _, [_], rfl, rfl, rfl⟩
  | awaiting w₀ next flushed h hw₀ =>
    obtain rfl : w = w₀ := Option.some.inj (hw.symm.trans hw₀)
    exact ⟨rfl, _, [], rfl, rfl, (List.append_nil _).symm⟩
  | unflushed w₀ next flushed _ h hw₀ hp₀ =>
    obtain rfl : w = w₀ := Option.some.inj (hw.symm.trans hw₀)
    exact absurd hp₀ hp
  | _ => exact ⟨rfl, same rfl⟩

/-- **One event of a session that is shut**, while its worker lives. -/
theorem declines_step (hk : s.Kept b.call (e :: es)) (h : s.Shut) (hf : s.shared.fatal = some err)
    (hw : s.worker = some w) (hp : w.phase = .idle) (hd : e ≠ .died) :
    ∃ w', (s.step e).1.worker = some w' ∧ s.Declines w err e w' (deeds (s.step e).2) := by
  have same : s.step e = (s, []) → e.isRound = false →
      ∃ w', (s.step e).1.worker = some w' ∧ s.Declines w err e w' (deeds (s.step e).2) := by
    intro hstep he
    rw [hstep]
    exact ⟨w, hw, .queues w [] hp (List.append_nil _).symm he⟩
  have own : OwnEvent e → e.isRound = false →
      ∃ w', (s.step e).1.worker = some w' ∧ s.Declines w err e w' (deeds (s.step e).2) := by
    intro he hr
    cases hk with
    | held own work hc =>
      rcases turns_step hc he with ⟨hstep, -⟩ | ⟨op, lc, -, ht⟩
      · exact same hstep hr
      · obtain ⟨hdeeds, w', more, hw', hp', hq'⟩ := queue_turn hc ht hw (by rw [hp]; simp)
        rw [hdeeds]
        exact ⟨w', hw', .queues w' more (hp'.trans hp) hq' hr⟩
    | left hwait hn =>
      rcases he with ⟨op, rfl⟩ | ⟨answer, rfl⟩ | rfl
      · exact absurd List.mem_cons_self (hn op)
      · exact same (by simp [Session.step, answered, hwait]) hr
      · exact same (by simp [Session.step, woken, hwait]) hr
  cases e with
  | died => exact absurd rfl hd
  | called op => exact own (Or.inl ⟨op, rfl⟩) rfl
  | answered answer => exact own (Or.inr (Or.inl ⟨answer, rfl⟩)) rfl
  | woken => exact own (Or.inr (Or.inr rfl)) rfl
  | abandoned => exact ⟨w, hw, .queues w [] hp (List.append_nil _).symm rfl⟩
  | outwaited =>
    by_cases hwait : s.wait = .drain
    · have hstep : s.step .outwaited =
          ({ s with wait := .nothing, worker := some { w with queue := [], phase := .stopped } },
            ((queued w.queue).map Deed.dropped).map .deed ++
              [.disconnected, .returned (.ok .done)]) := by
        simp [Session.step, outwaited, hwait, deliver, hw, Delivery.kill, hp, Delivery.held, finished]
      have hdeeds : deeds (s.step .outwaited).2 = (queued w.queue).map .dropped := by
        rw [hstep, deeds_append, deeds_map]
        exact List.append_nil _
      rw [hdeeds, hstep]
      exact ⟨_, rfl, .killed _ hwait rfl rfl⟩
    · refine same ?_ rfl
      rw [Session.step, outwaited]
      split
      · rename_i hdrain
        exact absurd hdrain hwait
      · rfl
  | round visible =>
    obtain ⟨pending, barrier, rest, hqueue, hless, hworker, -, hdeeds⟩ :=
      Delivery.round_halted (d := ⟨w, s.shared⟩) hp hf visible
    simp only [Session.step, deliver, hw, deeds_map, hworker, hdeeds]
    refine ⟨_, rfl, ?_⟩
    have htaken : pending.map (·.ticket) =
        queued (pending.map .send ++ (barrier.map .barrier).toList) := by
      rw [Delivery.queued_append, Delivery.queued_sends, Delivery.queued_barrier, List.append_nil]
    rw [htaken]
    refine .fails visible _ _ (Worker.reached_phase _ _) ?_ fun hne hnil => ?_
    · rw [Worker.reached_queue]
      exact hqueue
    · have hlt := hless hne
      rw [hqueue, hnil, List.nil_append] at hlt
      exact absurd hlt (Nat.lt_irrefl _)
  | delivered answer =>
    -- the worker waits for no answer
    refine same ?_ rfl
    rcases Daybook.delivered_unfit ⟨w, s.shared⟩ answer with he | ⟨q, hq, -⟩
    · simp only [Session.step, deliver, hw, he, List.map_nil]
      rw [← hw]
    · rw [show w.request? = _ from h.idles w hw] at hq
      cases hq
  | drained =>
    by_cases ha : s.attached = true
    · exact same (by simp only [Session.step, ha, ↓reduceIte]) rfl
    · have hstep : s.step .drained = s.deliver fun d => (d.drained, []) := if_neg ha
      by_cases hq : w.queue = []
      · have hdrained : Delivery.drained ⟨w, s.shared⟩ = ⟨{ w with phase := .stopped }, s.shared⟩ := by
          simp only [Delivery.drained, hp, hq, Delivery.setPhase]
        rw [hstep]
        simp only [deliver, hw, hdrained]
        exact ⟨_, rfl, .ends _ hq rfl hq⟩
      · have hdrained : Delivery.drained ⟨w, s.shared⟩ = ⟨w, s.shared⟩ := by
          unfold Delivery.drained
          split
          · rename_i hnil
            exact absurd hnil hq
          · rfl
        refine same ?_ rfl
        rw [hstep]
        simp only [deliver, hw, hdrained, List.map_nil]
        rw [← hw]

/-- All that ends fails with the error. -/
theorem Declines.failed {ds : List Deed} (h : s.Declines w err e w' ds) :
    ∀ x ∈ completions ds, x.2 = .error err := by
  cases h with
  | queues => simp [completions]
  | fails => simp
  | ends => simp [completions]
  | killed => simp

/-- **The front of the queue fails.** The induction is on the events: a round
takes at least one message, what comes later goes behind. -/
theorem fails_front : ∀ {es : List Event} {s : Session} {b : Daybook} {w : Worker} {front rest : List Message},
    s.Kept b.call es → s.Shut → s.shared.fatal = some err → s.worker = some w → w.phase = .idle →
    .died ∉ es → w.queue = front ++ rest → front.length ≤ es.countP Event.isRound →
    ∀ t ∈ queued front, (t, .error err) ∈ completions (deeds (s.run es).2) ∨
      (t ∈ drops (deeds (s.run es).2) ∧
        ∃ fs, fs ++ [.outwaited] <+: es ∧ (s.run fs).1.wait = .drain)
  | [], _, _, _, front, _, _, _, _, _, _, _, _, hlen, t, ht => by
    rw [List.countP_nil, Nat.le_zero, List.length_eq_zero_iff] at hlen
    rw [hlen] at ht
    cases ht
  | e :: es, s, b, w, front, rest, hk, h, hf, hw, hp, hd, hq, hlen, t, ht => by
    have hdied : e ≠ .died := fun he => hd (he ▸ List.mem_cons_self)
    have hhalts := halts_step s e
    obtain ⟨w', hw', hdeclines⟩ := declines_step hk h hf hw hp hdied
    have hrun : deeds (s.run (e :: es)).2 = deeds (s.step e).2 ++ deeds ((s.step e).1.run es).2 := by
      rw [Session.run, deeds_append]
    rw [hrun, completions_append, drops_append]
    -- what becomes of it later
    have later : ∀ {front' : List Message} (rest' : List Message), w'.phase = .idle →
        w'.queue = front' ++ rest' →
        front'.length ≤ es.countP Event.isRound → t ∈ queued front' →
        (t, .error err) ∈ completions (deeds (s.step e).2) ++
            completions (deeds ((s.step e).1.run es).2) ∨
          (t ∈ drops (deeds (s.step e).2) ++ drops (deeds ((s.step e).1.run es).2) ∧
            ∃ fs, fs ++ [.outwaited] <+: e :: es ∧ (s.run fs).1.wait = .drain) := by
      intro front' rest' hp' hq' hlen' ht'
      rcases fails_front (b := b.step s e) hk.step (hhalts.shut h)
          ((hhalts.keeps h.fatal).trans hf) hw' hp' (fun hm => hd (List.mem_cons_of_mem e hm)) hq'
          hlen' t ht' with hdone | ⟨hgone, fs, hfs, hwait⟩
      · exact Or.inl (List.mem_append_right _ hdone)
      · exact Or.inr ⟨List.mem_append_right _ hgone, e :: fs,
          List.cons_prefix_cons.mpr ⟨rfl, hfs⟩, hwait⟩
    generalize hds : deeds (s.step e).2 = ds at hdeclines later
    cases hdeclines with
    | queues _ more hp' hq' he =>
      refine later (rest ++ more) hp' (by rw [hq', hq, List.append_assoc]) ?_ ht
      rwa [List.countP_cons_of_neg (by simp [he])] at hlen
    | fails visible _ taken hp' hq' hne =>
      rw [List.countP_cons_of_pos rfl] at hlen
      rw [hq] at hq' hne
      rcases List.append_eq_append_iff.mp hq' with ⟨more, htaken, -⟩ | ⟨more, hfront, hrest⟩
      · -- the whole front is taken
        left
        rw [htaken, Delivery.queued_append, completions_failAll]
        simp [ht]
      · rw [hfront, Delivery.queued_append, List.mem_append] at ht
        rcases ht with ht | ht
        · left
          simp [ht]
        · refine later rest hp' hrest ?_ ht
          have hpos : taken ≠ [] := hne fun hnil => by
            rw [hfront] at hnil
            simp only [List.append_eq_nil_iff] at hnil
            rw [hnil.1.2] at ht
            cases ht
          have := List.length_pos_iff.mpr hpos
          rw [hfront, List.length_append] at hlen
          omega
    | ends _ hnil =>
      rw [hq, List.append_eq_nil_iff] at hnil
      rw [hnil.1] at ht
      cases ht
    | killed _ hwait =>
      refine Or.inr ⟨List.mem_append_left _ ?_, [], by simp, hwait⟩
      rw [drops_dropped, hq, Delivery.queued_append]
      exact List.mem_append_left _ ht

/-- A send that is accepted is in the queue: the accounts leave no other place
for it. -/
theorem queued_of_accepted {x : Sent} (h : Accounted s b) (hne : e ≠ .abandoned)
    (hw : s.worker = some w) (hp : w.phase = .idle) (hw' : (s.step e).1.worker = some w')
    (hd : s.Declines w err e w' (deeds (s.step e).2))
    (hx : (b.step s e).accepted = b.accepted ++ [x]) :
    w'.phase = .idle ∧ x.ticket ∈ queued w'.queue := by
  obtain ⟨hcompleted, hdropped⟩ : (b.step s e).completed = b.completed ++ completions (deeds (s.step e).2) ∧
      (b.step s e).dropped = b.dropped ++ drops (deeds (s.step e).2) := by
    simpa [Daybook.run, Session.run] using Daybook.run_ends s b [e]
  have hbefore := h.tickets
  have hafter := (h.step hne).tickets
  rw [Session.outstanding_of hw, Worker.outstanding, hp] at hbefore
  rw [Session.outstanding_of hw', hx, hcompleted, hdropped, Worker.outstanding] at hafter
  have hlengths := And.intro hbefore.length_eq hafter.length_eq
  have hcounts := And.intro (hbefore.count_eq x.ticket) (hafter.count_eq x.ticket)
  generalize deeds (s.step e).2 = ds at hd hlengths hcounts
  cases hd with
  | queues _ more hp' hq' =>
    refine ⟨hp', ?_⟩
    rw [hp'] at hcounts
    simp [completions, drops, Delivery.held] at hcounts
    refine List.count_pos_iff.mp ?_
    omega
  | fails visible _ taken hp' hq' =>
    rw [hp', hq', Delivery.queued_append] at hlengths
    simp [Delivery.held] at hlengths
    omega
  | ends _ hq hp' hq' =>
    rw [hp', hq', hq] at hlengths
    simp [completions, drops, Delivery.held, queued] at hlengths
    omega
  | killed _ hwait hp' hq' =>
    rw [hp', hq'] at hlengths
    simp [Delivery.held, queued] at hlengths
    omega

/-! ### The session as a whole -/

/-- How many messages are in the queue. -/
def backlog (s : Session) : ℕ := s.worker.elim 0 (·.queue.length)

/-- What is left of the session `s₀` once the events `ds` have come and the
terminal error `err` is known. -/
structure Doomed (s₀ : Session) (ds : List Event) (err : DeliveryError) : Prop where
  /-- The error stays. -/
  keeps : ∀ fs, (s₀.run (ds ++ fs)).1.shared.fatal = some err
  /-- Nothing is enrolled or appended, -/
  silent : ∀ fs, writes ((s₀.run ds).1.run fs).2 = []
  /-- and was not by the event that brought the error. -/
  halts : ∀ cs e, ds = cs ++ [e] → writes ((s₀.run cs).1.step e).2 = []
  /-- No record is acknowledged. -/
  unacknowledged : ∀ fs, (s₀.run (ds ++ fs)).1.shared.counters.acknowledged =
    (s₀.run ds).1.shared.counters.acknowledged
  /-- While the worker lives, a send that ends fails with the error. -/
  fails : ∀ fs e, Owned (ds ++ fs ++ [e]) → (s₀.run (ds ++ fs)).1.isWorkerGone = false →
    ∀ x ∈ completions (deeds ((s₀.run (ds ++ fs)).1.step e).2), x.2 = .error err
  /-- A send that is accepted ends so once the worker has taken as many rounds as
  there are messages, unless a close gives it up first. -/
  sends : ∀ fs e x gs, .abandoned ∉ ds ++ fs ++ [e] → Owned gs → .died ∉ gs →
    (s₀.run (ds ++ fs)).1.isWorkerGone = false →
    (Daybook.empty.run s₀ (ds ++ fs ++ [e])).accepted =
      (Daybook.empty.run s₀ (ds ++ fs)).accepted ++ [x] →
    (s₀.run (ds ++ fs ++ [e])).1.backlog ≤ gs.countP Event.isRound →
      (x.ticket, .error err) ∈ completions (deeds ((s₀.run (ds ++ fs ++ [e])).1.run gs).2) ∨
      (x.ticket ∈ drops (deeds ((s₀.run (ds ++ fs ++ [e])).1.run gs).2) ∧
        ∃ hs, hs ++ [.outwaited] <+: gs ∧ ((s₀.run (ds ++ fs ++ [e])).1.run hs).1.wait = .drain)
  /-- No transaction begins. -/
  begins : ∀ fs, (s₀.run (ds ++ fs)).1.lifecycle = .ready → (s₀.run (ds ++ fs)).1.wait = .nothing →
    (s₀.run (ds ++ fs)).1.step (.called .begin) =
      ((s₀.run (ds ++ fs)).1, [.returned (.error err.forSession)])
  /-- A commit in a transaction fails with the error, an abort succeeds; nobody
  is asked for anything. -/
  ends : ∀ fs o f, .abandoned ∉ ds ++ fs → (s₀.run (ds ++ fs)).1.isWorkerGone = false → Lively f →
    ((s₀.run (ds ++ fs)).1.lifecycle = .inTransaction → (s₀.run (ds ++ fs)).1.wait = .nothing →
      ((s₀.run (ds ++ fs)).1.step (.called (.finish o))).2 = [] ∧
        ((s₀.run (ds ++ fs)).1.step (.called (.finish o))).1.Resolves err o f) ∧
    ((s₀.run (ds ++ fs)).1.wait = .room (.barrier .flush) (.flush (.finish o)) ∨
      (s₀.run (ds ++ fs)).1.wait = .flush (.finish o) → (s₀.run (ds ++ fs)).1.Resolves err o f)

/-- The error that is known stays. -/
theorem fatal_run : ∀ (es : List Event) (s : Session), s.shared.fatal = some err →
    (s.run es).1.shared.fatal = some err :=
  run_keeps fun s e hf => ((halts_step s e).keeps (by simp [hf])).trans hf

/-- A session that is shut acknowledges nothing. -/
theorem acknowledged_run (h : s.Shut) (es : List Event) :
    (s.run es).1.shared.counters.acknowledged = s.shared.counters.acknowledged :=
  (run_keeps (P := fun t => t.Shut ∧ t.shared.counters.acknowledged = s.shared.counters.acknowledged)
    (fun t e ht => ⟨(halts_step t e).shut ht.1, ((halts_step t e).acknowledged ht.1).trans ht.2⟩)
    es s ⟨h, rfl⟩).2

/-- **A terminal error is the last word.** It stays and takes effect at once: on
what the worker has taken and on what is still queued, on the sends to come, and
on every beginning and end of a transaction. -/
theorem doomed (h : build config connected = .ok s₀) {ds : List Event} (ho : Owned ds)
    (hf : (s₀.run ds).1.shared.fatal = some err) : s₀.Doomed ds err := by
  have hshut : (s₀.run ds).1.Shut := shut_of_fatal h ho (by simp [hf])
  have later : ∀ fs, (s₀.run (ds ++ fs)).1.Shut ∧ (s₀.run (ds ++ fs)).1.shared.fatal = some err := by
    intro fs
    rw [run_append]
    exact ⟨hshut.run fs, fatal_run fs _ hf⟩
  refine ⟨fun fs => (later fs).2, fun fs => silent_run fs _ hshut.fatal, ?_, ?_, ?_, ?_, ?_, ?_⟩
  · rintro cs e rfl
    rw [run_append] at hshut
    exact (halts_step _ e).silent hshut.fatal
  · intro fs
    rw [run_append]
    exact acknowledged_run hshut fs
  · intro fs e hes hlive
    obtain ⟨w, hw, hp⟩ := (later fs).1.worker hlive
    by_cases hd : e = .died
    · subst hd
      have hdeeds : deeds ((s₀.run (ds ++ fs)).1.step .died).2 =
          (Delivery.held w.phase ++ queued w.queue).map .dropped := by
        simp only [step, deliver, hw, Delivery.kill, deeds_map]
      rw [hdeeds, completions_dropped]
      simp
    · obtain ⟨w', -, hdeclines⟩ :=
        declines_step (kept_build h (ds ++ fs) hes) (later fs).1 (later fs).2 hw hp hd
      exact hdeclines.failed
  · intro fs e x gs ha hgs hd hlive hx hlen
    obtain ⟨w, hw, hp⟩ := (later fs).1.worker hlive
    have hfs : Event.abandoned ∉ ds ++ fs := fun hm => ha (List.mem_append_left _ hm)
    have hne : e ≠ .abandoned := fun he => ha (by simp [he])
    have haccounted := (Accounted.start h).run hfs
    have hone : (s₀.run (ds ++ fs ++ [e])).1 = ((s₀.run (ds ++ fs)).1.step e).1 ∧
        Daybook.empty.run s₀ (ds ++ fs ++ [e]) =
          (Daybook.empty.run s₀ (ds ++ fs)).step (s₀.run (ds ++ fs)).1 e := by
      rw [Daybook.run_append, run_append]
      exact ⟨rfl, rfl⟩
    have hkept := kept_build h (ds ++ fs) (owned_of_notMem ha)
    by_cases hdied : e = .died
    · -- no send is accepted when the worker dies
      exfalso
      subst hdied
      rw [hone.2] at hx
      simp [Daybook.step, Daybook.called, step, deliver, hw, Daybook.foldl_deeds] at hx
    · obtain ⟨w', hw', hdeclines⟩ := declines_step hkept (later fs).1 (later fs).2 hw hp hdied
      obtain ⟨hp', hticket⟩ := queued_of_accepted haccounted hne hw hp hw' hdeclines (hone.2 ▸ hx)
      obtain ⟨own, work, hc⟩ := ((Accounted.start h).run ha).coupled
      have hnext := later (fs ++ [e])
      rw [← List.append_assoc] at hnext
      rw [← hone.1] at hw'
      rw [backlog, hw'] at hlen
      exact fails_front (.held own work hc hgs) hnext.1 hnext.2 hw' hp' hd
        (List.append_nil _).symm hlen x.ticket hticket
  · intro fs hl hwait
    have hf := (later fs).2
    generalize (s₀.run (ds ++ fs)).1 = s at hf hl hwait
    have hs : { s with wait := .nothing } = s := by rw [← hwait]
    have hbegin : s.step (.called .begin) = s.failed err.forSession := by
      simp only [step, hwait, called, hl, ↓reduceIte, begin, hf]
    rw [hbegin, failed, finished, hs]
  · intro fs o f ha hlive hlively
    obtain ⟨own, work, hc⟩ := ((Accounted.start h).run ha).coupled
    have hcapacity : 0 < (s₀.run (ds ++ fs)).1.config.queueCapacity := by
      rw [config_run]
      exact capacity_pos h
    refine ⟨fun hl hwait => ?_, fun hwait => ?_⟩
    · obtain ⟨heffects, r, k, hwithdraws⟩ :=
        withdraws_called (later fs).1 (later fs).2 hl hwait hlive hcapacity o
      exact ⟨heffects, hwithdraws.resolves hlively⟩
    · obtain ⟨r, k, hwithdraws⟩ :=
        withdraws_running hc (later fs).1 (later fs).2 hlive hcapacity hwait
      exact hwithdraws.resolves hlively

/-- The session whose identity is superseded hears of it. -/
def hearsSuperseded : List Event := superseded ++ [.delivered (.error (.fenced "tx" 0 1))]

/-- One more send is accepted and fails with the same error, and so does a
commit. -/
theorem doomed_superseded : Session.build Scene.settings true = .ok (fresh Scene.settings) ∧
    Owned hearsSuperseded ∧
    ((fresh Scene.settings).run hearsSuperseded).1.shared.fatal = some (.fenced "tx" 1000 0) ∧
    (fresh Scene.settings).Doomed hearsSuperseded (.fenced "tx" 1000 0) ∧
    ((⟨1, .future⟩, .error (.fenced "tx" 1000 0)) : Ticket × Completion) ∈ completions (deeds
      (((fresh Scene.settings).run (hearsSuperseded ++ [] ++
        [.called (.send (Scene.draftFor 0) ⟨1, .future⟩ 0)])).1.run [.round 1]).2) ∧
    (((fresh Scene.settings).run (hearsSuperseded ++ [])).1.step
      (.called (.finish .commit))).1.Resolves (.fenced "tx" 1000 0) .commit byTurns := by
  have howned : Owned hearsSuperseded := owned_of_notMem (by simp [hearsSuperseded, superseded])
  have hdoomed : (fresh Scene.settings).Doomed hearsSuperseded (.fenced "tx" 1000 0) :=
    doomed build_settings howned rfl
  refine ⟨build_settings, howned, rfl, hdoomed, ?_, ?_⟩
  · have hsend := hdoomed.sends [] (.called (.send (Scene.draftFor 0) ⟨1, .future⟩ 0))
      ⟨Scene.draftFor 0, ⟨1, .future⟩, 0⟩ [.round 1] (by simp [hearsSuperseded, superseded])
      (owned_of_notMem (by simp)) (by simp) rfl rfl (by decide +kernel)
    refine hsend.resolve_right fun h => ?_
    obtain ⟨hs, hprefix, -⟩ := h.2
    have hmem := hprefix.subset (List.mem_append_right hs (List.mem_singleton_self Event.outwaited))
    simp at hmem
  · exact (hdoomed.ends [] .commit byTurns (by simp [hearsSuperseded, superseded]) rfl
      lively_byTurns).1 rfl rfl |>.2

end Session
end FencedLog
