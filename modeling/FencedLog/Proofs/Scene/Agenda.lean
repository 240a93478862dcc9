/-
# The order of a worker's messages

A worker has messages ahead of it: the barrier of the round it is in, and its
queue. A barrier that begins a transaction is the first of them, and a flush
that the session waits for is the last (`Shape`). Outside of a transaction
there is nothing but a flush ahead, and the worker is idle. So whatever was
sent is done with when a flush has been reached.

Key definitions: `Worker.agenda`, `Worker.Sound`, `Shape`.
Key theorems: `Shape.queue_send`, `Shape.queue_flush`,
`Shape.answered`, `Shape.round`, `Worker.Sound.next`.
-/
import FencedLog.Proofs.Delivery.Moves
import FencedLog.Proofs.Session.Turn

namespace FencedLog

/-- The messages ahead of a worker. -/
def Worker.agenda (w : Worker) : List Message := (w.phase.barrier.map .barrier).toList ++ w.queue

/-- A barrier that begins a transaction, if there is one. -/
def resetting (reset : Bool) : List Message := if reset then [.barrier .newTransaction] else []

/-- The barrier of a flush that the session waits for. -/
def flushing (wait : Wait) (flushed : Bool) : List Message :=
  match wait with
  | .flush _ => if flushed then [] else [.barrier .flush]
  | _ => []

/-- What is ahead of a worker, when the session waits and stands like this. -/
structure Shape (wait : Wait) (lifecycle : Lifecycle) (w : Worker) : Prop where
  agenda : w.phase ≠ .stopped → ∃ reset ps,
    w.agenda = resetting reset ++ ps.map .send ++ flushing wait w.flushed ∧
      (reset = true → w.phase = .idle) ∧
      (lifecycle ≠ .inTransaction → lifecycle ≠ .closed →
        reset = false ∧ ps = [] ∧ w.phase = .idle)
  /-- A flush that has been reached was the last message. -/
  reached : ∀ next, wait = .flush next → w.flushed = true →
    w.queue = [] ∧ (w.phase = .idle ∨ w.phase = .stopped)
  /-- A flush that waits for room is not reached. -/
  armed : ∀ next, wait = .room (.barrier .flush) next → w.flushed = false

/-- What holds of every worker. -/
structure Worker.Sound (w : Worker) : Prop where
  stopped : w.phase = .stopped → w.queue = []
  fresh : ∀ fresh batches barrier, w.phase = .enrolling fresh batches barrier →
    (∀ p ∈ fresh, p ∉ w.enrolled) ∧ ∀ b ∈ batches, b.partition ∈ w.enrolled ++ fresh
  known : ∀ batch rest barrier, w.phase = .appending batch rest barrier →
    ∀ b ∈ batch :: rest, b.partition ∈ w.enrolled

variable {wait wait' : Wait} {lc lc' : Lifecycle} {w : Worker}

/-! ### The session moves -/

theorem flushing_of_ne (h : ∀ next, wait ≠ .flush next) (flushed : Bool) :
    flushing wait flushed = [] := by
  cases wait with
  | flush next => exact absurd rfl (h next)
  | _ => rfl

/-- Outside of a flush, a worker that is not waited for has nothing ahead of it
but what its lifecycle says. -/
theorem Shape.settle (h : Shape wait lc w)
    (hu : ∀ next, wait = .flush next → w.flushed = true ∨ w.phase = .stopped)
    (hw : ∀ next, wait' ≠ .flush next)
    (ha : ∀ next, wait' = .room (.barrier .flush) next → w.flushed = false) :
    Shape wait' lc w where
  agenda := fun hp => by
    obtain ⟨reset, ps, he, hr, hl⟩ := h.agenda hp
    refine ⟨reset, ps, ?_, hr, hl⟩
    rw [flushing_of_ne hw]
    -- what was waited for has been reached
    have hnil : flushing wait w.flushed = [] := by
      cases hwait : wait with
      | flush next =>
        rcases hu next hwait with hf | hf
        · rw [hf]
          rfl
        · exact absurd hf hp
      | _ => rfl
    rwa [hnil] at he
  reached := fun next hn => absurd hn (hw next)
  armed := ha

/-- The session moves on, and the worker has nothing to do, or may have. -/
theorem Shape.relocate (h : Shape wait lc w)
    (hl : lc' = .inTransaction ∨ lc' = .closed ∨ (lc ≠ .inTransaction ∧ lc ≠ .closed) ∨
      (∀ next, wait ≠ .flush next) ∧ w.queue = [] ∧ (w.phase = .idle ∨ w.phase = .stopped)) :
    Shape wait lc' w where
  agenda := fun hp => by
    obtain ⟨reset, ps, he, hr, hq⟩ := h.agenda hp
    rcases hl with rfl | rfl | hl | ⟨hw, hqueue, hphase⟩
    · exact ⟨reset, ps, he, hr, fun hn => absurd rfl hn⟩
    · exact ⟨reset, ps, he, hr, fun _ hn => absurd rfl hn⟩
    · exact ⟨reset, ps, he, hr, fun _ _ => hq hl.1 hl.2⟩
    · have hidle := hphase.resolve_right hp
      refine ⟨false, [], ?_, fun _ => hidle, fun _ _ => ⟨rfl, rfl, hidle⟩⟩
      rw [flushing_of_ne hw, Worker.agenda, hidle, hqueue]
      rfl
  reached := h.reached
  armed := h.armed

theorem agenda_queue (w : Worker) (m : Message) :
    (Stance.queue w m).agenda = w.agenda ++ [m] := by
  simp [Stance.queue, Worker.agenda]

/-- A record is queued in a transaction. -/
theorem Shape.queue_send (h : Shape wait .inTransaction w) (hw : ∀ next, wait ≠ .flush next)
    (hp : w.phase ≠ .stopped) (p : Pending) :
    Shape .nothing .inTransaction (Stance.queue w (.send p)) where
  agenda := fun _ => by
    obtain ⟨reset, ps, he, hr, -⟩ := h.agenda hp
    refine ⟨reset, ps ++ [p], ?_, hr, fun hn => absurd rfl hn⟩
    rw [agenda_queue, he, flushing_of_ne hw]
    simp [flushing]
  reached := fun _ hn => nomatch hn
  armed := fun _ hn => nomatch hn

/-- A transaction begins. -/
theorem Shape.queue_begin (h : Shape wait .ready w) (hw : ∀ next, wait ≠ .flush next)
    (hp : w.phase ≠ .stopped) :
    Shape .nothing .inTransaction (Stance.queue w (.barrier .newTransaction)) where
  agenda := fun _ => by
    obtain ⟨reset, ps, he, -, hl⟩ := h.agenda hp
    obtain ⟨rfl, rfl, hidle⟩ := hl (by decide) (by decide)
    refine ⟨true, [], ?_, fun _ => hidle, fun hn => absurd rfl hn⟩
    rw [agenda_queue, he, flushing_of_ne hw]
    rfl
  reached := fun _ hn => nomatch hn
  armed := fun _ hn => nomatch hn

/-- A flush is queued. -/
theorem Shape.queue_flush (h : Shape wait lc w) (hw : ∀ next, wait ≠ .flush next)
    (hp : w.phase ≠ .stopped) (next : AfterFlush) :
    Shape (.flush next) lc (Stance.queue { w with flushed := false } (.barrier .flush)) where
  agenda := fun _ => by
    obtain ⟨reset, ps, he, hr, hl⟩ := h.agenda hp
    refine ⟨reset, ps, ?_, hr, hl⟩
    rw [flushing_of_ne hw, List.append_nil] at he
    rw [agenda_queue, show ({ w with flushed := false } : Worker).agenda = w.agenda from rfl, he]
    rfl
  reached := fun _ _ hf => nomatch hf
  armed := fun _ hn => nomatch hn

/-- Whether a flush was reached does not matter unless one is waited for. -/
theorem Shape.forget (h : Shape wait lc w) (hw : ∀ next, wait ≠ .flush next)
    (hw' : ∀ next, wait' ≠ .flush next) : Shape wait' lc { w with flushed := false } where
  agenda := fun hp => by
    obtain ⟨reset, ps, he, hr, hl⟩ := h.agenda hp
    refine ⟨reset, ps, ?_, hr, hl⟩
    rw [flushing_of_ne hw] at he
    rw [flushing_of_ne hw']
    exact he
  reached := fun _ _ hf => nomatch hf
  armed := fun _ _ => rfl

/-! ### The worker moves -/

theorem flushing_cases (wait : Wait) (flushed : Bool) : flushing wait flushed = [] ∨
    (flushing wait flushed = [.barrier .flush] ∧ (∃ next, wait = .flush next) ∧
      flushed = false) := by
  cases wait with
  | flush next =>
    cases flushed with
    | true => exact Or.inl rfl
    | false => exact Or.inr ⟨rfl, ⟨next, rfl⟩, rfl⟩
  | _ => exact Or.inl rfl

/-- Records are taken from the front of the records. -/
theorem front_sends {flushed : Bool} {ms : List Message} : ∀ {pending ps : List Pending},
    pending.map .send ++ ms = ps.map .send ++ flushing wait flushed →
      ∃ ps', ps = pending ++ ps' ∧ ms = ps'.map .send ++ flushing wait flushed
  | [], ps, h => ⟨ps, rfl, h⟩
  | p :: pending, [], h => by
    rcases flushing_cases wait flushed with hf | ⟨hf, -, -⟩ <;> rw [hf] at h <;> simp at h
  | p :: pending, p' :: ps, h => by
    simp only [List.map_cons, List.cons_append, List.cons.injEq, Message.send.injEq] at h
    obtain ⟨ps', rfl, hms⟩ := front_sends h.2
    exact ⟨ps', by rw [h.1, List.cons_append], hms⟩

/-- A barrier is taken only when it is the flush, and then nothing is left. -/
theorem front_barrier {flushed : Bool} {b : Barrier} {rest : List Message} {ps : List Pending}
    (h : .barrier b :: rest = ps.map .send ++ flushing wait flushed) :
    ps = [] ∧ b = .flush ∧ rest = [] ∧ (∃ next, wait = .flush next) ∧ flushed = false := by
  cases ps with
  | cons p ps => simp at h
  | nil =>
    rcases flushing_cases wait flushed with hf | ⟨hf, hw, hfl⟩
    · rw [hf] at h
      simp at h
    · rw [hf] at h
      simp only [List.map_nil, List.nil_append, List.cons.injEq, Message.barrier.injEq] at h
      exact ⟨rfl, h.1, h.2, hw, hfl⟩

/-- What a round may take from the front of the agenda: nothing, some records,
the barrier that begins a transaction, or all records and the flush. -/
theorem front {flushed : Bool} {pending : List Pending} {barrier : Option Barrier}
    {rest : List Message} {reset : Bool} {ps : List Pending}
    (h : pending.map .send ++ (barrier.map .barrier).toList ++ rest =
      resetting reset ++ ps.map .send ++ flushing wait flushed) :
    (pending = [] ∧ barrier = none ∧
      rest = resetting reset ++ ps.map .send ++ flushing wait flushed) ∨
    (reset = false ∧ barrier = none ∧ ∃ ps', ps = pending ++ ps' ∧
      rest = ps'.map .send ++ flushing wait flushed) ∨
    (reset = true ∧ pending = [] ∧ barrier = some .newTransaction ∧
      rest = ps.map .send ++ flushing wait flushed) ∨
    (reset = false ∧ pending = ps ∧ barrier = some .flush ∧ rest = [] ∧
      (∃ next, wait = .flush next) ∧ flushed = false) := by
  cases reset with
  | true =>
    cases pending with
    | cons p pending => simp [resetting] at h
    | nil =>
      cases barrier with
      | none => exact Or.inl ⟨rfl, rfl, h⟩
      | some b =>
        simp only [List.map_nil, Option.map_some, Option.toList_some, List.nil_append, resetting,
          ↓reduceIte, List.cons_append, List.cons.injEq, Message.barrier.injEq] at h
        exact Or.inr (Or.inr (Or.inl ⟨rfl, rfl, by rw [h.1], h.2⟩))
  | false =>
    rw [List.append_assoc] at h
    simp only [resetting, Bool.false_eq_true, ↓reduceIte, List.nil_append] at h
    obtain ⟨ps', hps, hms⟩ := front_sends h
    cases barrier with
    | none => exact Or.inr (Or.inl ⟨rfl, rfl, ps', hps, hms⟩)
    | some b =>
      obtain ⟨rfl, rfl, rfl, hw, hf⟩ := front_barrier hms
      exact Or.inr (Or.inr (Or.inr ⟨rfl, by rw [hps, List.append_nil], rfl, rfl, hw, hf⟩))

/-- Nothing was taken that a request could come of. -/
def Quiet (wait : Wait) (lc : Lifecycle) (flushed : Bool) (barrier : Option Barrier) : Prop :=
  barrier = some .newTransaction ∨ (lc ≠ .inTransaction ∧ lc ≠ .closed) ∨
    ((∃ next, wait = .flush next) ∧ flushed = true)

/-- What is left of the agenda once its front is taken, with the barrier that
was taken. -/
structure Rest (wait : Wait) (lc : Lifecycle) (flushed : Bool) (barrier : Option Barrier)
    (rest : List Message) : Prop where
  /-- Without a barrier, or at the one that begins a transaction. -/
  more : barrier ≠ some .flush → ∃ ps : List Pending, rest = ps.map .send ++ flushing wait flushed ∧
    (lc ≠ .inTransaction → lc ≠ .closed → ps = [])
  last : barrier = some .flush → rest = [] ∧ (∃ next, wait = .flush next) ∧ flushed = false
  done : ∀ next, wait = .flush next → flushed = true → rest = []

/-- A worker whose front has been taken goes on in shape. -/
theorem Shape.next {barrier : Option Barrier} (h : Rest wait lc w.flushed barrier w.queue)
    (harm : ∀ next, wait = .room (.barrier .flush) next → w.flushed = false)
    {loads : List Freight} {w' : Worker} {q : Option Request} (hn : w.Next barrier loads w' q)
    (hq : Quiet wait lc w.flushed barrier → q = none) : Shape wait lc w' := by
  -- a worker that is not done yet still has the barrier ahead
  have busy : ∀ phase : Phase, phase ≠ .idle → phase.barrier = barrier →
      ¬ Quiet wait lc w.flushed barrier → Shape wait lc { w with phase := phase } := by
    intro phase hphase hbar hne
    have hout : ¬ (lc ≠ .inTransaction ∧ lc ≠ .closed) := fun h => hne (Or.inr (Or.inl h))
    refine ⟨fun _ => ?_, fun next hw hf => absurd (Or.inr (Or.inr ⟨⟨next, hw⟩, hf⟩)) hne, harm⟩
    by_cases hfl : barrier = some .flush
    · obtain ⟨hrest, ⟨next, hw⟩, hf⟩ := h.last hfl
      refine ⟨false, [], ?_, fun hr => (nomatch hr), fun h₁ h₂ => absurd ⟨h₁, h₂⟩ hout⟩
      simp [Worker.agenda, hbar, hfl, hrest, hw, hf, flushing, resetting]
    · obtain ⟨ps, hps, -⟩ := h.more hfl
      refine ⟨false, ps, ?_, fun hr => (nomatch hr), fun h₁ h₂ => absurd ⟨h₁, h₂⟩ hout⟩
      have hnone : barrier = none := by
        cases barrier with
        | none => rfl
        | some b => cases b <;> [exact absurd rfl hfl; exact absurd (Or.inl rfl) hne]
      simp [Worker.agenda, hbar, hnone, hps, resetting]
  -- a worker that is done has its queue ahead
  have idle : ∀ w' : Worker, w'.queue = w.queue → w'.flushed = w.flushed → w'.phase = .idle →
      barrier ≠ some .flush → Shape wait lc w' := by
    intro w' hqueue hflushed hphase hfl
    obtain ⟨ps, hps, hl⟩ := h.more hfl
    refine ⟨fun _ => ⟨false, ps, ?_, fun hr => (nomatch hr), fun h₁ h₂ => ⟨rfl, hl h₁ h₂, hphase⟩⟩,
      fun next hw hf => ⟨?_, Or.inl hphase⟩, hflushed ▸ harm⟩
    · simp [Worker.agenda, hphase, Phase.barrier, hqueue, hflushed, hps, resetting]
    · rw [hqueue]
      exact h.done next hw (hflushed ▸ hf)
  cases hn with
  | reach =>
    cases barrier with
    | none => exact idle _ rfl rfl rfl (by simp)
    | some b =>
      cases b with
      | newTransaction => exact idle _ rfl rfl rfl (by simp)
      | flush =>
        obtain ⟨hrest, ⟨next, hw⟩, -⟩ := h.last rfl
        refine ⟨fun _ => ⟨false, [], ?_, fun hr => (nomatch hr), fun _ _ => ⟨rfl, rfl, rfl⟩⟩,
          fun _ _ _ => ⟨hrest, Or.inl rfl⟩, fun next' hw' => ?_⟩
        · simp [Worker.agenda, Worker.reached, Phase.barrier, hrest, hw, flushing, resetting]
        · rw [hw] at hw'
          cases hw'
  | enroll fresh batches => exact busy _ (by simp) rfl fun hquiet => nomatch hq hquiet
  | append batch rest => exact busy _ (by simp) rfl fun hquiet => nomatch hq hquiet

/-- What is ahead of a worker that waits for an answer. -/
theorem Shape.busy (h : Shape wait lc w) (hp : w.phase ≠ .idle) (hs : w.phase ≠ .stopped) :
    Rest wait lc w.flushed w.phase.barrier w.queue ∧ ¬ Quiet wait lc w.flushed w.phase.barrier := by
  obtain ⟨reset, ps, he, hr, hl⟩ := h.agenda hs
  have hreset : reset = false := by
    cases reset with
    | false => rfl
    | true => exact absurd (hr rfl) hp
  subst hreset
  have hout : ¬ (lc ≠ .inTransaction ∧ lc ≠ .closed) := fun ⟨h₁, h₂⟩ => hp (hl h₁ h₂).2.2
  have hopen : ¬ ((∃ next, wait = .flush next) ∧ w.flushed = true) := fun ⟨⟨next, hw⟩, hf⟩ =>
    (h.reached next hw hf).2.elim hp hs
  have hdone : ∀ next, wait = .flush next → w.flushed = true → w.queue = [] :=
    fun next hw hf => absurd ⟨⟨next, hw⟩, hf⟩ hopen
  have hfront : ([] : List Pending).map .send ++ (w.phase.barrier.map .barrier).toList ++ w.queue =
    resetting false ++ ps.map .send ++ flushing wait w.flushed := he
  rcases front hfront with ⟨-, hb, hrest⟩ | ⟨-, hb, ps', hps, hrest⟩ | ⟨hreset, -⟩ |
    ⟨-, -, hb, hrest, hw, hf⟩
  · refine ⟨⟨fun _ => ⟨ps, hrest, fun h₁ h₂ => absurd ⟨h₁, h₂⟩ hout⟩, fun hb' => ?_, hdone⟩, ?_⟩
    · rw [hb] at hb'
      cases hb'
    · rw [hb]
      exact fun hq => hq.elim (nomatch ·) fun hq => hq.elim hout hopen
  · refine ⟨⟨fun _ => ⟨ps', hrest, fun h₁ h₂ => absurd ⟨h₁, h₂⟩ hout⟩, fun hb' => ?_, hdone⟩, ?_⟩
    · rw [hb] at hb'
      cases hb'
    · rw [hb]
      exact fun hq => hq.elim (nomatch ·) fun hq => hq.elim hout hopen
  · cases hreset
  · refine ⟨⟨fun hb' => absurd hb hb', fun _ => ⟨hrest, hw, hf⟩, hdone⟩, ?_⟩
    rw [hb]
    exact fun hq => hq.elim (fun h => by cases h) fun hq => hq.elim hout hopen

/-- What is ahead of a worker that takes a round, if it takes anything. -/
theorem Shape.idle (h : Shape wait lc w) (hp : w.phase = .idle) {pending : List Pending}
    {barrier : Option Barrier} {rest : List Message}
    (hq : w.queue = pending.map .send ++ (barrier.map .barrier).toList ++ rest) :
    (pending = [] ∧ barrier = none ∧ rest = w.queue) ∨
      Rest wait lc w.flushed barrier rest ∧ (Quiet wait lc w.flushed barrier → pending = []) := by
  by_cases hnone : pending = [] ∧ barrier = none
  · obtain ⟨rfl, rfl⟩ := hnone
    exact Or.inl ⟨rfl, rfl, by rw [hq]; rfl⟩
  obtain ⟨reset, ps, he, hr, hl⟩ := h.agenda (by rw [hp]; simp)
  have hagenda : w.agenda = w.queue := by simp [Worker.agenda, hp, Phase.barrier]
  rw [hagenda, hq] at he
  -- a flush that has been reached leaves nothing to take
  have hopen : ¬ ((∃ next, wait = .flush next) ∧ w.flushed = true) := by
    intro ⟨⟨next, hw⟩, hf⟩
    have hempty := (h.reached next hw hf).1
    rw [hq] at hempty
    exact hnone (by simpa using (List.append_eq_nil_iff.mp hempty).1)
  have hdone : ∀ next, wait = .flush next → w.flushed = true → rest = [] :=
    fun next hw hf => absurd ⟨⟨next, hw⟩, hf⟩ hopen
  have quiet : barrier ≠ some .newTransaction → (lc ≠ .inTransaction ∧ lc ≠ .closed → pending = []) →
      Quiet wait lc w.flushed barrier → pending = [] := fun hb hps hquiet =>
    hquiet.elim (fun h => absurd h hb) fun hquiet => hquiet.elim hps fun h => absurd h hopen
  right
  rcases front he with ⟨h₁, h₂, -⟩ | ⟨-, rfl, ps', rfl, hrest⟩ | ⟨rfl, rfl, rfl, hrest⟩ |
    ⟨-, rfl, rfl, hrest, hw, hf⟩
  · exact absurd ⟨h₁, h₂⟩ hnone
  · have hps : lc ≠ .inTransaction → lc ≠ .closed → pending = [] ∧ ps' = [] :=
      fun h₁ h₂ => List.append_eq_nil_iff.mp (hl h₁ h₂).2.1
    exact ⟨⟨fun _ => ⟨ps', hrest, fun h₁ h₂ => (hps h₁ h₂).2⟩, fun hb => (nomatch hb), hdone⟩,
      quiet (by simp) fun ⟨h₁, h₂⟩ => (hps h₁ h₂).1⟩
  · exact ⟨⟨fun _ => ⟨ps, hrest, fun h₁ h₂ => (hl h₁ h₂).2.1⟩, fun hb => (nomatch hb), hdone⟩,
      fun _ => rfl⟩
  · exact ⟨⟨fun hb => absurd rfl hb, fun _ => ⟨hrest, hw, hf⟩, hdone⟩,
      quiet (by simp) fun ⟨h₁, h₂⟩ => (hl h₁ h₂).2.1⟩

/-- An answer keeps the shape, and a round does. -/
theorem Shape.answered (h : Shape wait lc w) (hp : w.phase ≠ .idle) (hs : w.phase ≠ .stopped)
    {enrolled : List TopicPartition} {loads : List Freight} {w' : Worker} {q : Option Request}
    (hn : ({ w with enrolled := enrolled } : Worker).Next w.phase.barrier loads w' q) :
    Shape wait lc w' := by
  obtain ⟨hrest, hquiet⟩ := h.busy hp hs
  have hrest' : Rest wait lc ({ w with enrolled := enrolled } : Worker).flushed w.phase.barrier
    ({ w with enrolled := enrolled } : Worker).queue := hrest
  exact Shape.next hrest' h.armed hn fun hq => absurd hq hquiet

theorem Shape.round (h : Shape wait lc w) (hp : w.phase = .idle) {pending : List Pending}
    {barrier : Option Barrier} {rest : List Message}
    (hqueue : w.queue = pending.map .send ++ (barrier.map .barrier).toList ++ rest)
    {loads : List Freight} {w' : Worker} {q : Option Request}
    (hn : ({ w with queue := rest } : Worker).Next barrier loads w' q)
    (hnil : pending = [] → q = none ∧ w' = ({ w with queue := rest } : Worker).reached barrier) :
    Shape wait lc w' := by
  rcases h.idle hp hqueue with ⟨hpn, rfl, rfl⟩ | ⟨hrest, hquiet⟩
  · rw [(hnil hpn).2, show w.reached none = w by rw [Worker.reached, ← hp]]
    exact h
  · have hrest' : Rest wait lc ({ w with queue := rest } : Worker).flushed barrier
      ({ w with queue := rest } : Worker).queue := hrest
    exact Shape.next hrest' h.armed hn fun hq => (hnil (hquiet hq)).1

/-- Outside of a transaction a worker rests. -/
theorem Shape.resting (h : Shape wait lc w) (hl : lc ≠ .inTransaction) (hc : lc ≠ .closed) :
    (w.phase = .idle ∨ w.phase = .stopped) ∧ (w.phase ≠ .stopped → pendings w.queue = []) := by
  by_cases hs : w.phase = .stopped
  · exact ⟨Or.inr hs, fun hn => absurd hs hn⟩
  obtain ⟨reset, ps, he, -, hq⟩ := h.agenda hs
  obtain ⟨rfl, rfl, hidle⟩ := hq hl hc
  refine ⟨Or.inl hidle, fun _ => ?_⟩
  have hagenda : w.queue = flushing wait w.flushed := by
    simpa [Worker.agenda, hidle, Phase.barrier, resetting] using he
  rw [hagenda]
  rcases flushing_cases wait w.flushed with hf | ⟨hf, -, -⟩ <;> rw [hf] <;> rfl

/-- While a worker waits for an answer no transaction is about to begin. -/
theorem Shape.not_resetting (h : Shape wait lc w) (hi : w.phase ≠ .idle)
    (hs : w.phase ≠ .stopped) : .barrier .newTransaction ∉ w.agenda := by
  obtain ⟨reset, ps, he, hr, -⟩ := h.agenda hs
  have hreset : reset = false := by
    cases reset with
    | false => rfl
    | true => exact absurd (hr rfl) hi
  rw [he, hreset]
  rcases flushing_cases wait w.flushed with hf | ⟨hf, -, -⟩ <;> simp [hf, resetting]

/-! ### What a worker knows -/

/-- A worker that goes on knows where its loads go. -/
theorem Worker.Sound.next {barrier : Option Barrier} {loads : List Freight} {w' : Worker}
    {q : Option Request} (hn : w.Next barrier loads w' q) : w'.Sound := by
  cases hn with
  | reach =>
    cases barrier with
    | none => exact ⟨(nomatch ·), fun _ _ _ h => (nomatch h), fun _ _ _ h => nomatch h⟩
    | some b => cases b <;> exact ⟨(nomatch ·), fun _ _ _ h => (nomatch h), fun _ _ _ h => nomatch h⟩
  | enroll fresh batches hne hfresh hknown =>
    refine ⟨(nomatch ·), fun _ _ _ h => ?_, fun _ _ _ h => nomatch h⟩
    cases h
    exact ⟨hfresh, hknown⟩
  | append batch rest hknown =>
    refine ⟨(nomatch ·), fun _ _ _ h => (nomatch h), fun _ _ _ h => ?_⟩
    cases h
    exact hknown

theorem Worker.Sound.flush (h : w.Sound) (flushed : Bool) : ({ w with flushed := flushed }).Sound :=
  ⟨h.stopped, h.fresh, h.known⟩

theorem Worker.Sound.queue (h : w.Sound) (hp : w.phase ≠ .stopped) (m : Message) :
    (Stance.queue w m).Sound :=
  ⟨fun hs => absurd hs hp, h.fresh, h.known⟩

end FencedLog
