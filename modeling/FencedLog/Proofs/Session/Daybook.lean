/-
# What becomes of the sends of a session

A daybook is what the owner of a session knows: the call made last, the sends
that were accepted, those that were completed, and those that were given up.
`Daybook.Step` lists what one event may do to them: it takes up a send, moves
the worker on, gives up what the worker has, or does nothing to the sends.

The answers to requests are not those of a broker here: any answer may come at
any time, and one that does not fit changes nothing.

Key definitions: `Daybook`, `Daybook.step`, `Daybook.run`, `Daybook.Step`.
Key theorems: `Session.turns_step`, `Session.step_closed`, `Session.flush_returns`.
-/
import FencedLog.Proofs.Delivery.Completions
import FencedLog.Proofs.Scene.Steps

namespace FencedLog

open Stance

structure Daybook where
  call : Option Call
  accepted : List Sent
  completed : List (Ticket × Completion)
  dropped : List Ticket

namespace Daybook

def empty : Daybook := ⟨none, [], [], []⟩

/-- The running call ends; a send is accepted when its call succeeds. -/
def returned (b : Daybook) (r : Except SessionError Report) : Daybook :=
  match b.call with
  | none => b
  | some call =>
    let b := { b with call := some { call with result := some r } }
    match call.operation, r with
    | .send draft ticket present, .ok _ =>
      { b with accepted := b.accepted ++ [⟨draft, ticket, present⟩] }
    | _, _ => b

/-- One effect of the session. -/
def feel (b : Daybook) : Effect → Daybook
  | .deed (.completed t c) => { b with completed := b.completed ++ [(t, c)] }
  | .deed (.dropped t) => { b with dropped := b.dropped ++ [t] }
  | .returned r => b.returned r
  | .asked _ | .deed (.request _) | .disconnected => b

/-- The owner makes a call, unless one is running. -/
def called (b : Daybook) (s : Session) : Event → Daybook
  | .called operation =>
    match s.wait with
    | .nothing => { b with call := some ⟨operation, s.lifecycle, none⟩ }
    | _ => b
  | _ => b

/-- One event of the session. -/
def step (b : Daybook) (s : Session) (e : Event) : Daybook :=
  (s.step e).2.foldl feel (b.called s e)

def run (b : Daybook) (s : Session) : List Event → Daybook
  | [] => b
  | e :: es => (b.step s e).run (s.step e).1 es

theorem run_append (b : Daybook) (s : Session) (es fs : List Event) :
    b.run s (es ++ fs) = (b.run s es).run (s.run es).1 fs := by
  induction es generalizing b s with
  | nil => rfl
  | cons e es ih => exact ih (b.step s e) (s.step e).1

/-- What a worker does. -/
theorem foldl_deeds : ∀ (deeds : List Deed) (b : Daybook),
    (deeds.map Effect.deed).foldl feel b = { b with
      completed := b.completed ++ completions deeds
      dropped := b.dropped ++ drops deeds }
  | [], b => by simp [completions, drops]
  | d :: deeds, b => by
    rw [List.map_cons, List.foldl_cons, foldl_deeds deeds]
    cases d <;> simp [feel, completions, drops]

variable {b : Daybook} {op : Operation} {lc : Lifecycle}

theorem returned_error (h : b.call = some ⟨op, lc, none⟩) (err : SessionError) :
    b.returned (.error err) = { b with call := some ⟨op, lc, some (.error err)⟩ } := by
  unfold returned
  rw [h]
  cases op <;> rfl

theorem returned_ok (h : b.call = some ⟨op, lc, none⟩)
    (hs : ∀ draft ticket present, op ≠ .send draft ticket present) (r : Report) :
    b.returned (.ok r) = { b with call := some ⟨op, lc, some (.ok r)⟩ } := by
  unfold returned
  rw [h]
  cases op with
  | send draft ticket present => exact absurd rfl (hs draft ticket present)
  | _ => rfl

theorem returned_send {x : Sent} (h : b.call = some ⟨.send x.draft x.ticket x.present, lc, none⟩)
    (r : Report) : b.returned (.ok r) =
      { b with
        call := some ⟨.send x.draft x.ticket x.present, lc, some (.ok r)⟩
        accepted := b.accepted ++ [x] } := by
  unfold returned
  rw [h]

end Daybook

/-! ### Where the sends are -/

/-- The tickets that a worker holds or has in its queue. -/
def Worker.outstanding (w : Worker) : List Ticket :=
  Delivery.held w.phase ++ Delivery.queued w.queue

def Session.outstanding (s : Session) : List Ticket := s.worker.elim [] Worker.outstanding

/-- How many sends wait for room in the queue. -/
def Wait.crowd : Wait → Nat
  | .room (.send _) _ => 1
  | _ => 0

theorem Session.outstanding_of {s : Session} {w : Worker} (h : s.worker = some w) :
    s.outstanding = w.outstanding := by
  rw [outstanding, h]
  rfl

theorem queued_eq : ∀ ms : List Message, Delivery.queued ms = (pendings ms).map (·.ticket)
  | [] => rfl
  | .send p :: ms => congrArg (p.ticket :: ·) (queued_eq ms)
  | .barrier _ :: ms => queued_eq ms

/-- A worker with the same records, or one that has just started; it has not
reached a flush meanwhile. -/
inductive SameLoad : Option Worker → Option Worker → Prop
  | none : SameLoad none none
  | start (w : Worker) (hp : w.phase = .idle) (hq : w.queue = []) (hf : w.flushed = false) :
      SameLoad none (some w)
  | some (w w' : Worker) (hp : w'.phase = w.phase) (hq : pendings w'.queue = pendings w.queue)
      (hf : w'.flushed = true → w.flushed = true) : SameLoad (some w) (some w')

theorem SameLoad.refl : ∀ w : Option Worker, SameLoad w w
  | .none => .none
  | .some w => .some w w rfl rfl id

theorem SameLoad.queue_barrier (w : Worker) (b : Barrier) {flushed : Bool}
    (hf : flushed = true → w.flushed = true) :
    SameLoad (.some w) (.some (Stance.queue { w with flushed := flushed } (.barrier b))) :=
  .some _ _ rfl (by simp [Stance.queue, pendings_append, pendings]) hf

theorem SameLoad.outstanding {s s' : Session} (h : SameLoad s.worker s'.worker) :
    s'.outstanding = s.outstanding := by
  unfold Session.outstanding
  generalize s.worker = w at h
  generalize s'.worker = w' at h
  cases h with
  | none => rfl
  | start w hp hq => simp [Worker.outstanding, hp, hq, Delivery.held, Delivery.queued]
  | some w w' hp hq => simp only [Option.elim, Worker.outstanding, hp, queued_eq, hq]

/-- A flush has been reached that an operation waits for, or the end of the
transaction is awaited after one. -/
def Stance.Reposes (v : Stance) : Prop :=
  (∃ next w, v.wait = .flush next ∧ v.worker = some w ∧ w.flushed = true) ∨
    ∃ o, v.wait = .finish o .inTransaction

/-- The operation, called in this lifecycle, flushes before it succeeds. -/
def Operation.Flushes (op : Operation) (lc : Lifecycle) : Prop :=
  op = .flush ∨ (∃ o, op = .finish o) ∧ lc = .inTransaction

/-- A flush has been reached and nothing was sent since. -/
def Stance.Rests (v : Stance) (call : Option Call) : Prop :=
  v.Reposes ∨ (v.wait = .nothing ∧
    ∃ op lc r, call = some ⟨op, lc, some (.ok r)⟩ ∧ op.Flushes lc)

/-- Nothing was counted that concerns a send. -/
structure Counters.SameSends (c c' : Counters) : Prop where
  sent : c'.sent = c.sent
  acknowledged : c'.acknowledged = c.acknowledged
  failed : c'.failed = c.failed

theorem Counters.SameSends.refl (c : Counters) : c.SameSends c := ⟨rfl, rfl, rfl⟩

/-- A send has come up to the queue, and is counted if it had not before. -/
def Session.Counts (s s' : Session) (failed : Nat) : Prop :=
  s'.shared.counters.sent + s.wait.crowd = s.shared.counters.sent + 1 ∧
    s'.shared.counters.acknowledged = s.shared.counters.acknowledged ∧
    s'.shared.counters.failed = s.shared.counters.failed + failed

/-! ### One event -/

/-- What one event does to the sends of a session. -/
inductive Daybook.Step (s : Session) (b : Daybook) (e : Event) : Session → Daybook → Prop
  /-- Nothing. -/
  | onward (s' : Session) (call' : Option Call) (hw : SameLoad s.worker s'.worker)
      (hc : s'.wait.crowd = s.wait.crowd)
      (hk : s.shared.counters.SameSends s'.shared.counters)
      (hr : s'.stance.Rests call' → s.stance.Rests b.call ∨ s.worker = none)
      (hl : s'.lifecycle = .closed → s'.wait = .drain ∨ (s'.wait = .nothing ∧
        ((s.lifecycle = .closed ∧ s.wait = .nothing) ∨ s.isWorkerGone = true))) :
      Step s b e s' { b with call := call' }
  /-- A send is queued. -/
  | queued (s' : Session) (x : Sent) (p : Pending) (w : Worker) (call' : Option Call)
      (hm : x.Makes p) (hw : s.worker = some w) (hp : w.phase ≠ .stopped)
      (hw' : s'.worker = some (Stance.queue w (.send p))) (hl : s'.lifecycle = .inTransaction)
      (hwait : s'.wait = .nothing) (hk : s.Counts s' 0) (hr : ¬ s'.stance.Rests call') :
      Step s b e s' { b with call := call', accepted := b.accepted ++ [x] }
  /-- A send waits for room. -/
  | waits (s' : Session) (p : Pending) (call' : Option Call) (hw : s'.worker = s.worker)
      (hl : s'.lifecycle = .inTransaction) (hwait : s'.wait = .room (.send p) .sent)
      (hk : s.Counts s' 0) (hr : ¬ s'.stance.Rests call') :
      Step s b e s' { b with call := call' }
  /-- There is no worker any more: a send is accepted and abandoned. -/
  | abandoned (s' : Session) (x : Sent) (p : Pending) (call' : Option Call) (hm : x.Makes p)
      (hw : s'.worker = s.worker) (hl : s'.lifecycle = .inTransaction) (hwait : s'.wait = .nothing)
      (hk : s.Counts s' 1) (hr : ¬ s'.stance.Rests call') :
      Step s b e s' { b with
        call := call', accepted := b.accepted ++ [x]
        completed := b.completed ++ [(p.ticket, .error .abandoned)] }
  /-- The worker moves. -/
  | moves (w : Worker) (gone : List Message) (r : Delivery × List Deed) (hw : s.worker = some w)
      (hr : Delivery.Advances ⟨w, s.shared⟩ gone r)
      (he : (∃ visible, e = .round visible ∧ r = Delivery.round ⟨w, s.shared⟩ visible) ∨
        ∃ answer, e = .delivered answer ∧ r = Delivery.answered ⟨w, s.shared⟩ answer) :
      Step s b e { s with worker := some r.1.worker, shared := r.1.shared }
        { b with completed := b.completed ++ completions r.2 }
  /-- The worker ends with nothing to do. -/
  | drains (w : Worker) (hw : s.worker = some w) (hp : w.phase = .idle) (hq : w.queue = []) :
      Step s b e { s with worker := some { w with phase := .stopped } } b
  /-- The worker is killed. -/
  | kills (w : Worker) (wait : Wait) (call' : Option Call) (hw : s.worker = some w)
      (he : (e = .died ∧ wait = s.wait ∧ call' = b.call) ∨
        (e = .outwaited ∧ s.wait = .drain ∧ wait = .nothing ∧ ∀ op lc r,
          call' = some ⟨op, lc, r⟩ → op = .close)) :
      Step s b e
        { s with wait := wait, worker := some { w with queue := [], phase := .stopped } }
        { b with call := call', dropped := b.dropped ++ s.outstanding }

/-! ### What is counted -/

namespace Session

variable {s : Session}

theorem counters_push_barrier (s : Session) (b : Barrier) {next : AfterPush} (h : next ≠ .sent) :
    (s.push (.barrier b) next).1.shared.counters = s.shared.counters := by
  rcases stance_push (rfl : s.stance = s.stance) with
    ⟨w, -, -, he⟩ | ⟨w, -, -, he⟩ | ⟨-, he⟩
  · rw [he]
    cases next <;> rfl
  · rw [he]
  · rw [he]
    cases next with
    | sent => exact absurd rfl h
    | begun => rfl
    | flush => rfl

theorem sameSends_conclude (s : Session) (o : Outcome) :
    s.shared.counters.SameSends (s.conclude o).1.shared.counters := by
  cases o <;> exact ⟨rfl, rfl, rfl⟩

theorem counters_askFinish (s : Session) (o : Outcome) (back : Lifecycle) :
    (s.askFinish o back).1.shared.counters = s.shared.counters := by
  unfold askFinish
  cases s.identity <;> rfl

theorem sameSends_flushed (s : Session) (next : AfterFlush) :
    s.shared.counters.SameSends (s.flushed next).1.shared.counters := by
  cases next with
  | report => exact .refl _
  | finish o =>
    simp only [flushed, finishFlushed]
    split
    · exact .refl _
    · exact sameSends_conclude s _
    · split
      · rw [counters_askFinish]
        exact .refl _
      · exact sameSends_conclude s _

theorem sameSends_askFlush (s : Session) (next : AfterFlush) :
    s.shared.counters.SameSends (s.askFlush next).1.shared.counters := by
  unfold askFlush
  split
  · exact sameSends_flushed s next
  · rw [counters_push_barrier _ _ (by simp)]
    exact .refl _

theorem sameSends_called {op : Operation} (h : ∀ draft ticket present, op ≠ .send draft ticket present) :
    s.shared.counters.SameSends (s.called op).1.shared.counters := by
  have same : ∀ {r : Session × List Effect}, r.1.shared.counters = s.shared.counters →
      s.shared.counters.SameSends r.1.shared.counters := fun hr => hr ▸ .refl _
  have finish : ∀ name o, s.shared.counters.SameSends (s.finish name o).1.shared.counters := by
    intro name o
    unfold Session.finish
    split
    · exact same rfl
    · exact same rfl
    · split
      · exact same (counters_askFinish s o _)
      · exact same rfl
    all_goals exact sameSends_askFlush s _
  cases op with
  | send draft ticket present => exact absurd rfl (h draft ticket present)
  | init =>
    simp only [called]
    split <;> exact same rfl
  | resume producer epoch =>
    simp only [called, resume]
    split
    · split <;> exact same rfl
    · exact same rfl
  | resumeFrom token =>
    simp only [called, resume]
    split
    · exact same rfl
    · split
      · exact same rfl
      · split <;> exact same rfl
  | begin =>
    simp only [called, begin]
    split
    · split
      · exact same rfl
      · exact same (counters_push_barrier _ _ (by simp))
    · exact same rfl
  | flush =>
    simp only [called]
    split
    · exact same rfl
    · exact sameSends_askFlush s _
  | finish o => cases o <;> exact finish _ _
  | listing topic =>
    simp only [called]
    split <;> exact same rfl
  | close =>
    simp only [called, close]
    split
    · exact same rfl
    · split <;> exact same rfl

theorem sameSends_answered (h : ∀ draft ticket present, s.wait ≠ .routing draft ticket present)
    (answer : Answer) : s.shared.counters.SameSends (s.answered answer).1.shared.counters := by
  unfold answered
  split
  · exact .refl _
  · exact .refl _
  · exact .refl _
  · exact .refl _
  · rename_i hw
    exact absurd hw (h _ _ _)
  · rename_i hw
    exact absurd hw (h _ _ _)
  · exact sameSends_conclude s _
  · rename_i e _
    unfold finishRefused
    cases e <;> cases s.identity <;> exact ⟨rfl, rfl, rfl⟩
  · exact .refl _

theorem sameSends_woken (hs : s.stance.Sane) (h : ∀ p next, s.wait ≠ .room (.send p) next) :
    s.shared.counters.SameSends s.woken.1.shared.counters := by
  unfold woken
  split
  · rename_i m next hw
    rcases hs.room m next hw with ⟨p, rfl, rfl⟩ | ⟨rfl, rfl⟩ | ⟨next, rfl, rfl⟩
    · exact absurd hw (h p _)
    · rw [counters_push_barrier _ _ (by simp)]
      exact .refl _
    · rw [counters_push_barrier _ _ (by simp)]
      exact .refl _
  · split
    · split
      · exact sameSends_flushed s _
      · split <;> exact .refl _
    · exact .refl _
  · split <;> exact .refl _
  · exact .refl _

/-! ### Events of the session -/

variable {own work : Line} {call : Option Call}

/-- An answer that the session does not wait for changes nothing. -/
theorem answered_unfit (hc : Coupled s.stance own work call) (answer : Answer) :
    s.answered answer = (s, []) ∨ ∃ q, s.stance.request? = some q ∧ Fits q answer := by
  have hid : ∀ o back, s.wait = .finish o back → ∃ id, s.identity = some id := by
    intro o back hw
    obtain ⟨op, lc, -, hrun⟩ := hc.running (by simp [stance, hw])
    rw [show s.stance.wait = _ from hw] at hrun
    cases hrun with
    | finishing _ _ hn =>
      have hman := (hc.sane.manned (by rw [hn, hasIdentity_ending])).2
      exact Option.ne_none_iff_exists'.mp hman
  unfold answered
  split
  case h_9 => exact Or.inl rfl
  case h_7 | h_8 =>
    -- only one that has an identity ends a transaction
    rename_i hw
    obtain ⟨id, hid⟩ := hid _ _ hw
    refine Or.inr ⟨_, by simp only [request?, stance, hw, hid]; rfl, ?_⟩
    trivial
  all_goals
    rename_i hw
    refine Or.inr ⟨_, by simp only [request?, stance, hw]; rfl, ?_⟩
    trivial

/-- An event of the session itself, not of its worker. -/
def OwnEvent (e : Event) : Prop := (∃ op, e = .called op) ∨ (∃ answer, e = .answered answer) ∨ e = .woken

/-- A call while another one is running changes nothing. -/
theorem called_busy {s : Session} {op : Operation} (hw : s.wait ≠ .nothing) (b : Daybook) :
    s.step (.called op) = (s, []) ∧ b.called s (.called op) = b := by
  rw [step, Daybook.called]
  constructor
  all_goals
    split
    · rename_i h
      exact absurd h hw
    · rfl

/-- An event of the session changes nothing, or is a turn that it is primed
for. -/
theorem turns_step {b : Daybook} (hc : Coupled s.stance own work b.call) {e : Event}
    (he : OwnEvent e) : (s.step e = (s, []) ∧ b.called s e = b) ∨
      ∃ op lc, Primed s.stance .idle (b.called s e).call e op lc ∧ s.Turns e (s.step e) := by
  rcases he with ⟨op, rfl⟩ | ⟨answer, rfl⟩ | rfl
  · by_cases hw : s.wait = .nothing
    · right
      refine ⟨op, s.lifecycle, ⟨rfl, ?_, Or.inl ⟨hw, rfl, rfl⟩⟩, ?_⟩
      · simp only [Daybook.called, hw]
      · have hstep : s.step (.called op) = s.called op := by rw [step, hw]
        rw [hstep]
        exact turns_called hc.sane hw op
    · exact Or.inl (called_busy hw b)
  · rcases answered_unfit hc answer with hstay | ⟨q, hq, hfit⟩
    · exact Or.inl ⟨hstay, rfl⟩
    · have hw : s.stance.wait ≠ .nothing := fun hw => by simp [request?, hw] at hq
      obtain ⟨op, lc, hcall, hrun⟩ := hc.running hw
      exact Or.inr ⟨op, lc, ⟨rfl, hcall,
        Or.inr ⟨hw, hrun, by simp, Or.inr ⟨q, answer, hq, rfl, hfit⟩⟩⟩, turns_answered answer⟩
  · by_cases hw : s.stance.wait ≠ .nothing ∧ s.stance.request? = none
    · obtain ⟨op, lc, hcall, hrun⟩ := hc.running hw.1
      exact Or.inr ⟨op, lc, ⟨rfl, hcall, Or.inr ⟨hw.1, hrun, by simp, Or.inl hw.2⟩⟩,
        turns_woken hc.sane⟩
    · -- who waits for an answer does not look up
      left
      refine ⟨?_, rfl⟩
      rw [step, woken]
      split
      · rename_i m next hwait
        exact absurd ⟨by simp [stance, hwait], by simp [request?, stance, hwait]⟩ hw
      · rename_i next hwait
        exact absurd ⟨by simp [stance, hwait], by simp [request?, stance, hwait]⟩ hw
      · rename_i hwait
        exact absurd ⟨by simp [stance, hwait], by simp [request?, stance, hwait]⟩ hw
      · rfl

/-- A session that is closed waits for the end of its worker, or not at all. -/
theorem step_closed (hl : s.lifecycle = .closed) (hw : s.wait = .nothing ∨ s.wait = .drain)
    {e : Event} (he : OwnEvent e) : (s.step e).1.wait = s.wait ∨
      ((s.step e).1.wait = .nothing ∧ s.isWorkerGone = true) := by
  rcases he with ⟨op, rfl⟩ | ⟨answer, rfl⟩ | rfl
  · left
    rcases hw with hw | hw
    · have hstep : s.step (.called op) = s.called op := by rw [step, hw]
      rw [hstep, hw]
      cases op with
      | finish o => cases o <;> simp [called, Session.finish, hl, illegal, failed, finished]
      | close => simp [called, close, hl, finished]
      | _ => simp [called, hl, illegal, failed, finished]
    · simp [step, hw]
  · left
    rcases hw with hw | hw <;> simp [step, answered, hw]
  · rcases hw with hw | hw
    · simp [step, woken, hw]
    · by_cases hg : s.isWorkerGone = true
      · exact Or.inr ⟨by simp [step, woken, hw, hg, finished], hg⟩
      · exact Or.inl (by simp [step, woken, hw, hg])

/-- A flush that succeeds has been reached, or there was no worker yet. -/
theorem flush_returns {e : Event} (he : OwnEvent e) {lc : Lifecycle}
    (hp : Primed s.stance .idle call e .flush lc)
    (hr : ∃ r, .returned (.ok r) ∈ (s.step e).2) : s.stance.Reposes ∨ s.worker = none := by
  have hpush : ∀ (s₁ : Session) (next : AfterFlush),
      ¬ ∃ r, .returned (.ok r) ∈ (s₁.push (.barrier .flush) (.flush next)).2 := by
    rintro s₁ next ⟨r, hr⟩
    rcases stance_push (rfl : s₁.stance = s₁.stance) with
      ⟨w, -, -, he⟩ | ⟨w, -, -, he⟩ | ⟨-, he⟩ <;> rw [he] at hr <;>
      simp [pushed, unqueued, failed, finished] at hr
  by_cases hnone : s.worker = none
  · exact Or.inr hnone
  obtain ⟨w, hwk⟩ := Option.ne_none_iff_exists'.mp hnone
  left
  rcases hp.why with ⟨hw, rfl, -⟩ | ⟨hw, hrun, hcall, -⟩
  · -- the flush is only asked for
    exfalso
    have hw' : s.wait = .nothing := hw
    have hstep : s.step (.called .flush) = s.called .flush := by rw [step, hw']
    rw [hstep] at hr
    simp only [called] at hr
    split at hr
    · obtain ⟨r, hr⟩ := hr
      simp [illegal, failed, finished] at hr
    · rw [askFlush, hwk] at hr
      exact hpush _ _ hr
  · rcases he with ⟨op, rfl⟩ | ⟨answer, rfl⟩ | rfl
    · exact absurd rfl (hcall op)
    · exfalso
      obtain ⟨r, hr⟩ := hr
      generalize hwait : s.stance.wait = wait at hrun
      have hwait' : s.wait = wait := hwait
      cases hrun <;> simp [step, answered, hwait'] at hr
    · generalize hwait : s.stance.wait = wait at hrun
      have hwait' : s.wait = wait := hwait
      cases hrun with
      | awaiting next _ _ =>
        rw [step, woken, hwait'] at hr
        exact absurd hr (hpush s next)
      | flushing next _ _ =>
        obtain ⟨r, hr⟩ := hr
        refine Or.inl ⟨next, w, hwait, hwk, ?_⟩
        by_cases hf : w.flushed = true
        · exact hf
        · simp only [step, woken, hwait', hwk] at hr
          rw [if_neg hf] at hr
          split at hr <;> simp [failed, finished] at hr

end Session

end FencedLog
