/-
# A session that is only asked to commit

A session holds the identity of a transaction, and all its sends have been
completed. A call to commit queues a flush, waits until its worker has acted on
it, asks the broker to commit, and returns; or it returns at once if the
session has nothing to commit. So at any time the session is in one of a few
poses, each with one act that it needs next and a bound on how many it still
needs (`Pose`). Every act that the session needs brings it further, and no other
act brings it back (`Posed.act`).

Key definitions: `Holder`, `Need`, `Commits`, `Pose`, `Posed`, `Presses`,
`Upshot`.
Key theorem: `Posed.act`.
-/
import FencedLog.Proofs.Scene.Coupled

namespace FencedLog

/-! ### A worker with barriers only -/

/-- A session that holds the identity of a transaction, and all of whose sends
have been completed. -/
structure Holder (T : Txn) (s : Session) (w : Worker) : Prop where
  txid : s.config.txid = T.txid
  identity : s.identity = some T.identity
  capacity : 0 < s.config.queueCapacity
  calm : s.shared.fatal = none
  worker : s.worker = some w
  idle : w.phase = .idle
  barriers : ∀ m ∈ w.queue, ∃ b, m = .barrier b

/-- The worker once it has acted on the first barrier of its queue. -/
def Worker.popped (w : Worker) : Worker :=
  match w.queue with
  | .barrier .flush :: rest => { w with queue := rest, flushed := true }
  | .barrier .newTransaction :: rest => { w with queue := rest, enrolled := [] }
  | _ => w

theorem Delivery.round_of_barriers {d : Delivery} (hi : d.worker.phase = .idle)
    (hq : ∀ m ∈ d.worker.queue, ∃ b, m = .barrier b) (visible : Nat) :
    d.round visible = (⟨d.worker.popped, d.shared⟩, []) := by
  obtain ⟨⟨txid, identity, maxBatch, queue, enrolled, phase, flushed⟩, shared⟩ := d
  obtain rfl : phase = .idle := hi
  cases queue with
  | nil => simp [round, takeRound, reach, setPhase, Worker.popped]
  | cons m rest =>
    obtain ⟨b, rfl⟩ := hq m List.mem_cons_self
    obtain ⟨k, hk⟩ : ∃ k, max visible 1 = k + 1 := ⟨max visible 1 - 1, by omega⟩
    have hrest : rest.take k ++ rest.drop k = rest := List.take_append_drop k rest
    cases b <;> simp [round, hk, takeRound, reach, Worker.popped, hrest]

theorem Worker.popped_phase (w : Worker) : w.popped.phase = w.phase := by
  unfold popped
  split <;> rfl

/-- The first barrier is taken from the queue, if there is one. -/
theorem Worker.popped_cases {w : Worker} (hb : ∀ m ∈ w.queue, ∃ b, m = .barrier b) :
    (w.queue = [] ∧ w.popped = w) ∨ ∃ b rest, w.queue = .barrier b :: rest ∧
      w.popped.queue = rest ∧ w.popped.flushed = (w.flushed || decide (b = .flush)) := by
  unfold popped
  cases hq : w.queue with
  | nil => exact Or.inl ⟨rfl, rfl⟩
  | cons m rest =>
    obtain ⟨b, rfl⟩ := hb m (hq ▸ List.mem_cons_self)
    refine Or.inr ⟨b, rest, rfl, ?_⟩
    cases b <;> simp

theorem Worker.mem_of_mem_popped {w : Worker} (hb : ∀ m ∈ w.queue, ∃ b, m = .barrier b)
    {m : Message} (hm : m ∈ w.popped.queue) : m ∈ w.queue := by
  rcases popped_cases hb with ⟨-, he⟩ | ⟨b, rest, hq, hrest, -⟩
  · rwa [he] at hm
  · rw [hrest] at hm
    rw [hq]
    exact List.mem_cons_of_mem _ hm

theorem Worker.length_popped_le {w : Worker} (hb : ∀ m ∈ w.queue, ∃ b, m = .barrier b) :
    w.popped.queue.length ≤ w.queue.length := by
  rcases popped_cases hb with ⟨-, he⟩ | ⟨b, rest, hq, hrest, -⟩
  · exact Nat.le_of_eq (by rw [he])
  · rw [hrest, hq, List.length_cons]
    omega

/-- The session moves on, and its worker may get barriers. -/
theorem Holder.moves {T : Txn} {s s' : Session} {w w' : Worker} (h : Holder T s w)
    (hc : s'.config = s.config) (hid : s'.identity = s.identity)
    (hf : s'.shared.fatal = s.shared.fatal) (hw : s'.worker = some w') (hp : w'.phase = w.phase)
    (hq : ∀ m ∈ w'.queue, m ∈ w.queue ∨ ∃ b, m = .barrier b) : Holder T s' w' where
  txid := (congrArg _ hc).trans h.txid
  identity := hid.trans h.identity
  capacity := hc ▸ h.capacity
  calm := hf.trans h.calm
  worker := hw
  idle := hp.trans h.idle
  barriers := fun m hm => (hq m hm).elim (h.barriers m) id

/-! ### Poses -/

/-- What a session needs next. -/
inductive Need where
  | round
  | wake
  | reach
  | hear

def Need.Meets : Need → Act → Prop
  | .round, .round _ => True
  | .wake, .wake => True
  | .reach, .reach .own _ _ => True
  | .hear, .hear .own => True
  | _, _ => False

/-- A call to commit that was made at `back` waits like this, and the session
stands at `now`. -/
structure Commits (σ : Scene) (wait : Wait) (own : Line) (now back : Lifecycle) : Prop where
  wait : σ.session.wait = wait
  own : σ.own = own
  now : σ.session.lifecycle = now
  call : σ.call = some ⟨.finish .commit, back, none⟩

/-- How far a session has come with its call to commit, how much it still needs
at most, and what it needs next. -/
inductive Pose (T : Txn) (σ : Scene) (w : Worker) : Nat → Need → Prop
  /-- There is no call. -/
  | resting (k : Need) (hw : σ.session.wait = .nothing) (ho : σ.own = .idle)
      (hl : σ.session.lifecycle = .ready ∨ σ.session.lifecycle = .inTransaction)
      (hc : ∀ op lc, σ.call ≠ some ⟨op, lc, none⟩) : Pose T σ w 0 k
  /-- The queue is full. -/
  | crowded (h : Commits σ (.room (.barrier .flush) (.flush (.finish .commit))) .idle
        .inTransaction .inTransaction)
      (hq : σ.session.config.queueCapacity ≤ w.queue.length) : Pose T σ w (w.queue.length + 5) .round
  | roomy (h : Commits σ (.room (.barrier .flush) (.flush (.finish .commit))) .idle
        .inTransaction .inTransaction)
      (hq : w.queue.length < σ.session.config.queueCapacity) : Pose T σ w (w.queue.length + 5) .wake
  /-- The flush is in the queue. -/
  | flushing (h : Commits σ (.flush (.finish .commit)) .idle .inTransaction .inTransaction)
      (hf : w.flushed = false) (hq : .barrier .flush ∈ w.queue) :
      Pose T σ w (w.queue.length + 3) .round
  | flushed (h : Commits σ (.flush (.finish .commit)) .idle .inTransaction .inTransaction)
      (hf : w.flushed = true) : Pose T σ w 3 .wake
  /-- The broker is asked to commit. -/
  | asking (back : Lifecycle) (h : Commits σ (.finish .commit back)
      (.sent (.finish T.txid T.identity .commit)) .committing back) : Pose T σ w 2 .reach
  | answered (back : Lifecycle) (h : Commits σ (.finish .commit back)
      (.replied (.ok .finished)) .committing back) : Pose T σ w 1 .hear

/-- A session that is only asked to commit. -/
def Posed (T : Txn) (σ : Scene) (n : Nat) (k : Need) : Prop :=
  ∃ w, Holder T σ.session w ∧ σ.work = .idle ∧ Pose T σ w n k

/-- The acts of such a session, when every answer is heard. -/
def Presses : Act → Prop
  | .call op => op = .finish .commit
  | .reach _ _ lost => lost = none
  | .hear _ | .wake | .round _ => True
  | _ => False

/-- The session has inherited a transaction, or has started the one it is in. -/
def Session.Shares (s : Session) : Prop :=
  s.inherited = true ∨ (s.lifecycle ≠ .ready ∧ s.shared.started = true)

/-- What an act comes to for the session's call to commit. -/
inductive Upshot (σ σ' : Scene) (a : Act) (n : Nat) (k : Need) (n' : Nat) (k' : Need) : Prop
  /-- The call goes on, if there is one. -/
  | going (hc : σ'.call = σ.call) (hs : σ.session.Shares → σ'.session.Shares)
      (hn : (n = 0 ∧ n' = 0) ∨ (0 < n' ∧ n' < n) ∨ (0 < n ∧ n' = n ∧ k' = k ∧ ¬ k.Meets a))
  /-- A call is made. -/
  | called (hn : n = 0) (hn' : 0 < n')
      (hc : σ'.call = some ⟨.finish .commit, σ.session.lifecycle, none⟩)
      (hs : σ.session.Shares → σ'.session.Shares)
  /-- A call returns without an error. A session that has part in the
  transaction has heard that it is committed. -/
  | returned (lc : Lifecycle) (hc : σ'.call = some ⟨.finish .commit, lc, some (.ok .done)⟩)
      (hb : ∀ op lc', σ.call = some ⟨op, lc', none⟩ → op = .finish .commit ∧ lc' = lc) (hn : n' = 0)
      (hs : σ.session.Shares → σ.own = .replied (.ok .finished))

/-- What an act comes to: the session is in a pose again, and the broker is left
alone or asked to commit. -/
structure Advance (T : Txn) (σ σ' : Scene) (a : Act) (n : Nat) (k : Need) : Prop where
  posed : ∃ n' k', Posed T σ' n' k' ∧ Upshot σ σ' a n k n' k'
  broker : (σ'.chronicle = σ.chronicle ∧
      (σ'.own = .replied (.ok .finished) → σ.own = .replied (.ok .finished))) ∨
    ∃ now, σ'.chronicle = σ.chronicle.act (.request now (.finish T.txid T.identity .commit))

namespace Scene

variable {T : Txn} {σ : Scene} {a : Act} {w : Worker} {n : Nat} {k : Need}

/-- An act that leaves the broker alone. -/
theorem advance_aside {σ' : Scene} {n' : Nat} {k' : Need} (hposed : Posed T σ' n' k')
    (hupshot : Upshot σ σ' a n k n' k') (hc : σ'.chronicle = σ.chronicle)
    (ho : σ'.own = .replied (.ok .finished) → σ.own = .replied (.ok .finished)) :
    Advance T σ σ' a n k where
  posed := ⟨n', k', hposed, hupshot⟩
  broker := Or.inl ⟨hc, ho⟩

/-- Nothing happens. -/
theorem advance_vain (h : Posed T σ n k) (hscene : σ.act a = σ)
    (hn : n = 0 ∨ (0 < n ∧ ¬ k.Meets a)) : Advance T σ (σ.act a) a n k := by
  have hupshot : Upshot σ σ a n k n k := by
    apply Upshot.going rfl id
    rcases hn with rfl | ⟨hpos, hk⟩
    · exact Or.inl ⟨rfl, rfl⟩
    · exact Or.inr (Or.inr ⟨hpos, rfl, rfl, hk⟩)
  rw [hscene]
  exact advance_aside h hupshot rfl id

/-! ### The worker's rounds -/

theorem act_round (h : Holder T σ.session w) (visible : Nat) : σ.act (.round visible) =
    { σ with session := { σ.session with worker := some w.popped } } := by
  have hround := Delivery.round_of_barriers (d := ⟨w, σ.session.shared⟩) h.idle h.barriers visible
  have hstep : σ.session.step (.round visible) =
      ({ σ.session with worker := some w.popped }, []) := by
    simp [Session.step, Session.deliver, h.worker, hround]
  simp [act, perform, hstep]

theorem advance_round (hh : Holder T σ.session w) (hwork : σ.work = .idle) (hp : Pose T σ w n k)
    (visible : Nat) : Advance T σ (σ.act (.round visible)) (.round visible) n k := by
  let σ' : Scene := { σ with session := { σ.session with worker := some w.popped } }
  have hscene : σ.act (.round visible) = σ' := act_round hh visible
  rw [hscene]
  have hqueue := Worker.popped_cases hh.barriers
  have hlen := Worker.length_popped_le hh.barriers
  have hholder : Holder T σ'.session w.popped :=
    hh.moves rfl rfl rfl rfl w.popped_phase fun _ hm => Or.inl (Worker.mem_of_mem_popped hh.barriers hm)
  -- what holds of the call holds of it again
  have again : ∀ {wait own now back}, Commits σ wait own now back → Commits σ' wait own now back :=
    fun h => ⟨h.wait, h.own, h.now, h.call⟩
  have build : ∀ {n' k'}, Pose T σ' w.popped n' k' → ((n = 0 ∧ n' = 0) ∨ (0 < n' ∧ n' < n) ∨
      (0 < n ∧ n' = n ∧ k' = k ∧ ¬ k.Meets (.round visible))) →
        Advance T σ σ' (.round visible) n k := fun hp' hn => by
    have hposed : Posed T σ' _ _ := ⟨w.popped, hholder, hwork, hp'⟩
    exact advance_aside hposed (.going rfl id hn) rfl id
  cases hp with
  | resting k hw ho hl hc => exact build (.resting k hw ho hl hc) (Or.inl ⟨rfl, rfl⟩)
  | crowded h hq =>
    -- a full queue is not empty
    have hcap := hh.capacity
    obtain ⟨b, rest, hcons, hrest, -⟩ := hqueue.resolve_left fun ⟨hnil, _⟩ => by
      rw [hnil, List.length_nil] at hq
      omega
    have hless : w.popped.queue.length + 1 = w.queue.length := by
      rw [hrest, hcons, List.length_cons]
    by_cases hq' : w.popped.queue.length < σ.session.config.queueCapacity
    · exact build (.roomy (again h) hq') (Or.inr (Or.inl (by omega)))
    · have hfull : σ.session.config.queueCapacity ≤ w.popped.queue.length := by omega
      exact build (.crowded (again h) hfull) (Or.inr (Or.inl (by omega)))
  | roomy h hq =>
    have hq' : w.popped.queue.length < σ.session.config.queueCapacity := by omega
    refine build (.roomy (again h) hq') ?_
    rcases hqueue with ⟨-, he⟩ | ⟨b, rest, hcons, hrest, -⟩
    · rw [he]
      exact Or.inr (Or.inr ⟨by omega, rfl, rfl, fun hm => hm⟩)
    · rw [hrest, hcons, List.length_cons]
      exact Or.inr (Or.inl (by omega))
  | flushing h hf hm =>
    obtain ⟨b, rest, hcons, hrest, hflushed⟩ := hqueue.resolve_left fun ⟨hnil, _⟩ => by
      rw [hnil] at hm
      cases hm
    have hless : w.popped.queue.length + 1 = w.queue.length := by
      rw [hrest, hcons, List.length_cons]
    cases b with
    | flush => exact build (.flushed (again h) (by simp [hflushed])) (Or.inr (Or.inl (by omega)))
    | newTransaction =>
      have hm' : .barrier .flush ∈ w.popped.queue := by
        rw [hrest]
        rw [hcons] at hm
        simpa using hm
      exact build (.flushing (again h) (by simp [hflushed, hf]) hm') (Or.inr (Or.inl (by omega)))
  | flushed h hf =>
    have hf' : w.popped.flushed = true := by
      rcases hqueue with ⟨-, he⟩ | ⟨b, rest, -, -, hflushed⟩
      · rw [he]
        exact hf
      · rw [hflushed, hf]
        rfl
    exact build (.flushed (again h) hf') (Or.inr (Or.inr ⟨by omega, rfl, rfl, fun hm => hm⟩))
  | asking back h =>
    exact build (.asking back (again h)) (Or.inr (Or.inr ⟨by omega, rfl, rfl, fun hm => hm⟩))
  | answered back h =>
    exact build (.answered back (again h)) (Or.inr (Or.inr ⟨by omega, rfl, rfl, fun hm => hm⟩))

/-! ### The end of a call -/

/-- The session's transaction is over, and its call to commit returns. -/
theorem perform_conclude {e : Event} {lc : Lifecycle}
    (he : σ.session.step e = σ.session.conclude .commit)
    (hc : σ.call = some ⟨.finish .commit, lc, none⟩) : σ.perform e = { σ with
      session := (σ.session.conclude .commit).1
      call := some ⟨.finish .commit, lc, some (.ok .done)⟩ } := by
  unfold perform
  rw [he]
  let σ' : Scene := { σ with session := (σ.session.conclude .commit).1 }
  exact returned_ok (σ := σ') hc (by simp) (by simp) .done

theorem advance_conclude (hh : Holder T σ.session w) (hwork : σ.work = .idle) {lc : Lifecycle}
    (hc : σ.call = some ⟨.finish .commit, lc, none⟩)
    (hs : σ.session.Shares → σ.own = .replied (.ok .finished)) : Advance T σ { σ with
      session := (σ.session.conclude .commit).1, own := .idle
      call := some ⟨.finish .commit, lc, some (.ok .done)⟩ } a n k := by
  let σ' : Scene := { σ with
    session := (σ.session.conclude .commit).1, own := .idle
    call := some ⟨.finish .commit, lc, some (.ok .done)⟩ }
  have hholder : Holder T σ'.session w :=
    hh.moves rfl rfl rfl hh.worker rfl fun _ hm => Or.inl hm
  have hpose : Pose T σ' w 0 .wake := .resting _ rfl rfl (Or.inl rfl) (by simp [σ'])
  -- the call that returns is the one that was running
  have hsame : ∀ op lc', σ.call = some ⟨op, lc', none⟩ → op = .finish .commit ∧ lc' = lc := by
    intro op lc' h
    obtain ⟨rfl, rfl, -⟩ := Call.mk.inj (Option.some.inj (hc.symm.trans h))
    exact ⟨rfl, rfl⟩
  have hupshot : Upshot σ σ' a n k 0 .wake := .returned lc rfl hsame rfl hs
  exact advance_aside ⟨w, hholder, hwork, hpose⟩ hupshot rfl fun h => nomatch h

/-! ### The session looks again -/

/-- The session's worker gets the flush, if there is room in its queue. -/
theorem push_flush (hh : Holder T σ.session w) :
    σ.session.push (.barrier .flush) (.flush (.finish .commit)) =
      if w.queue.length < σ.session.config.queueCapacity then
        ({ σ.session with
          worker := some (Stance.queue w (.barrier .flush)), wait := .flush (.finish .commit) }, [])
      else ({ σ.session with
        wait := .room (.barrier .flush) (.flush (.finish .commit)) }, []) := by
  unfold Session.push
  simp only [hh.worker, hh.idle]
  split
  · simp [Session.pushed, Stance.queue, hh.idle]
  · rfl

/-- What is queued behind barriers is a barrier. -/
theorem mem_queue_flush {m : Message} (hm : m ∈ (Stance.queue w (.barrier .flush)).queue) :
    m ∈ w.queue ∨ ∃ b, m = .barrier b := by
  rcases List.mem_append.mp hm with hm | hm
  · exact Or.inl hm
  · exact Or.inr ⟨.flush, List.mem_singleton.mp hm⟩

/-- The session waits for the flush that it has queued. -/
theorem posed_queued (hh : Holder T σ.session w) (hwork : σ.work = .idle)
    (h : Commits σ (.flush (.finish .commit)) .idle .inTransaction .inTransaction) {w₀ : Worker}
    (hw : w = Stance.queue w₀ (.barrier .flush)) :
    ∃ n k, Posed T σ n k ∧ 0 < n ∧ n ≤ w₀.queue.length + 4 := by
  have hm : .barrier .flush ∈ w.queue := by simp [hw, Stance.queue]
  have hlen : w.queue.length = w₀.queue.length + 1 := by simp [hw, Stance.queue]
  cases hf : w.flushed with
  | true => exact ⟨3, .wake, ⟨w, hh, hwork, .flushed h hf⟩, by omega, by omega⟩
  | false => exact ⟨_, _, ⟨w, hh, hwork, .flushing h hf hm⟩, by omega, by omega⟩

/-- The flush is reached: the session asks the broker to commit, if it has
anything to commit. -/
theorem advance_reached (hh : Holder T σ.session w) (hwork : σ.work = .idle)
    (h : Commits σ (.flush (.finish .commit)) .idle .inTransaction .inTransaction)
    (hf : w.flushed = true) : Advance T σ (σ.act .wake) .wake 3 .wake := by
  have hstep : σ.session.step .woken = σ.session.finishFlushed .commit := by
    simp [Session.step, Session.woken, h.wait, hh.worker, hf, Session.flushed]
  by_cases hs : (σ.session.inherited || σ.session.shared.started) = true
  · have hasked : σ.session.finishFlushed .commit = ({ σ.session with
        lifecycle := .committing, wait := .finish .commit .inTransaction },
        [.asked (.finish σ.session.config.txid T.identity .commit)]) := by
      simp [Session.finishFlushed, hh.calm, hs, Session.askFinish, hh.identity, Session.ask]
    let σ' : Scene := { σ with
      session := { σ.session with lifecycle := .committing, wait := .finish .commit .inTransaction }
      own := .sent (.finish T.txid T.identity .commit) }
    have hscene : σ.act .wake = σ' := by
      simp [act, perform, hstep, hasked, feel, hh.txid, σ']
    have hholder : Holder T σ'.session w :=
      hh.moves rfl rfl rfl hh.worker rfl fun _ hm => Or.inl hm
    have hposed : Posed T σ' 2 .reach :=
      ⟨w, hholder, hwork, .asking .inTransaction ⟨rfl, rfl, rfl, h.call⟩⟩
    have hshares : σ.session.Shares → σ'.session.Shares :=
      Or.imp_right fun hst => ⟨by simp [σ'], hst.2⟩
    have hupshot : Upshot σ σ' .wake 3 .wake 2 .reach :=
      .going rfl hshares (Or.inr (Or.inl (by omega)))
    rw [hscene]
    exact advance_aside hposed hupshot rfl fun hl => nomatch hl
  · have hdone : σ.session.finishFlushed .commit = σ.session.conclude .commit := by
      simp [Session.finishFlushed, hh.calm, hs]
    have hscene : σ.act .wake = { σ with
        session := (σ.session.conclude .commit).1, own := .idle
        call := some ⟨.finish .commit, .inTransaction, some (.ok .done)⟩ } := by
      have hperform := perform_conclude (hstep.trans hdone) h.call
      rw [← h.own]
      exact hperform
    rw [hscene]
    refine advance_conclude hh hwork h.call fun hshares => absurd ?_ hs
    rcases hshares with hi | ⟨-, hst⟩
    · simp [hi]
    · simp [hst]

theorem advance_wake (hh : Holder T σ.session w) (hwork : σ.work = .idle) (hp : Pose T σ w n k) :
    Advance T σ (σ.act .wake) .wake n k := by
  have hposed : Posed T σ n k := ⟨w, hh, hwork, hp⟩
  -- the session may find nothing new
  have still : σ.session.step .woken = (σ.session, []) → (n = 0 ∨ (0 < n ∧ ¬ k.Meets .wake)) →
      Advance T σ (σ.act .wake) .wake n k := fun hstep hn =>
    advance_vain hposed (by simp [act, perform, hstep]) hn
  cases hp with
  | resting k hw => exact still (by simp [Session.step, Session.woken, hw]) (Or.inl rfl)
  | crowded h hq =>
    have hstep : σ.session.step .woken = (σ.session, []) := by
      have hpush := push_flush hh
      rw [if_neg (by omega)] at hpush
      have hsame : { σ.session with wait := .room (.barrier .flush) (.flush (.finish .commit)) } =
          σ.session := by
        rw [← h.wait]
      simp [Session.step, Session.woken, h.wait, hpush, hsame]
    exact still hstep (Or.inr ⟨by omega, fun hm => hm⟩)
  | roomy h hq =>
    have hpush := push_flush hh
    rw [if_pos hq] at hpush
    let σ' : Scene := { σ with session := { σ.session with
      worker := some (Stance.queue w (.barrier .flush)), wait := .flush (.finish .commit) } }
    have hscene : σ.act .wake = σ' := by
      simp [act, perform, Session.step, Session.woken, h.wait, hpush, σ']
    have hholder : Holder T σ'.session (Stance.queue w (.barrier .flush)) :=
      hh.moves rfl rfl rfl rfl rfl fun _ => mem_queue_flush
    obtain ⟨n', k', hposed', hpos, hle⟩ :=
      posed_queued hholder hwork ⟨rfl, h.own, h.now, h.call⟩ rfl
    rw [hscene]
    exact advance_aside hposed' (.going rfl id (Or.inr (Or.inl ⟨hpos, by omega⟩))) rfl id
  | flushing h hf hm =>
    have hgone : σ.session.isWorkerGone = false := by
      simp [Session.isWorkerGone, hh.worker, Delivery.isStopped, hh.idle]
    have hstep : σ.session.step .woken = (σ.session, []) := by
      simp [Session.step, Session.woken, h.wait, hh.worker, hf, hgone]
    exact still hstep (Or.inr ⟨by omega, fun hm => hm⟩)
  | flushed h hf => exact advance_reached hh hwork h hf
  | asking back h =>
    exact still (by simp [Session.step, Session.woken, h.wait]) (Or.inr ⟨by omega, fun hm => hm⟩)
  | answered back h =>
    exact still (by simp [Session.step, Session.woken, h.wait]) (Or.inr ⟨by omega, fun hm => hm⟩)

/-! ### A call -/

/-- A session that is ready asks the broker at once, if it has inherited a
transaction, and else has nothing to do. -/
theorem advance_call_ready (hh : Holder T σ.session w) (hwork : σ.work = .idle)
    (hw : σ.session.wait = .nothing) (ho : σ.own = .idle) (hl : σ.session.lifecycle = .ready)
    (hc : ∀ op lc, σ.call ≠ some ⟨op, lc, none⟩) :
    Advance T σ (σ.act (.call (.finish .commit))) (.call (.finish .commit)) 0 k := by
  cases hi : σ.session.inherited with
  | true =>
    let σ' : Scene := { σ with
      session := { σ.session with lifecycle := .committing, wait := .finish .commit .ready }
      own := .sent (.finish T.txid T.identity .commit)
      call := some ⟨.finish .commit, .ready, none⟩ }
    have hscene : σ.act (.call (.finish .commit)) = σ' := by
      simp [act, hw, perform, Session.step, Session.called, Session.finish, hl, hi,
        Session.askFinish, hh.identity, Session.ask, feel, hh.txid, σ']
    have hholder : Holder T σ'.session w :=
      hh.moves rfl rfl rfl hh.worker rfl fun _ hm => Or.inl hm
    have hposed : Posed T σ' 2 .reach := ⟨w, hholder, hwork, .asking .ready ⟨rfl, rfl, rfl, rfl⟩⟩
    have hupshot : Upshot σ σ' (.call (.finish .commit)) 0 k 2 .reach :=
      .called rfl (by omega) (by rw [hl]) fun _ => Or.inl hi
    have hunheard : σ'.own ≠ .replied (.ok .finished) := by simp [σ']
    rw [hscene]
    exact advance_aside hposed hupshot rfl fun h => absurd h hunheard
  | false =>
    let σ' : Scene := { σ with
      session := { σ.session with wait := .nothing }
      call := some ⟨.finish .commit, .ready, some (.ok .done)⟩ }
    have hscene : σ.act (.call (.finish .commit)) = σ' := by
      simp [act, hw, perform, Session.step, Session.called, Session.finish, hl, hi,
        Session.finished, feel, returned, σ']
    have hholder : Holder T σ'.session w :=
      hh.moves rfl rfl rfl hh.worker rfl fun _ hm => Or.inl hm
    have hposed : Posed T σ' 0 .wake :=
      ⟨w, hholder, hwork, .resting _ rfl ho (Or.inl hl) (by simp [σ'])⟩
    have hnone : ¬ σ.session.Shares := by
      rintro (hi' | ⟨hne, -⟩)
      · rw [hi] at hi'
        cases hi'
      · exact hne hl
    have hupshot : Upshot σ σ' (.call (.finish .commit)) 0 k 0 .wake :=
      .returned .ready rfl (fun op lc h => absurd h (hc op lc)) rfl fun hs => absurd hs hnone
    rw [hscene]
    exact advance_aside hposed hupshot rfl id

/-- A session that is in a transaction flushes first. -/
theorem advance_call_inTransaction (hh : Holder T σ.session w) (hwork : σ.work = .idle)
    (hw : σ.session.wait = .nothing) (ho : σ.own = .idle)
    (hl : σ.session.lifecycle = .inTransaction) :
    Advance T σ (σ.act (.call (.finish .commit))) (.call (.finish .commit)) 0 k := by
  let σ₁ : Scene := { σ with
    session := { σ.session with worker := some { w with flushed := false } }
    call := some ⟨.finish .commit, .inTransaction, none⟩ }
  have hh₁ : Holder T σ₁.session { w with flushed := false } :=
    hh.moves rfl rfl rfl rfl rfl fun _ hm => Or.inl hm
  have hstep : σ.session.step (.called (.finish .commit)) =
      σ₁.session.push (.barrier .flush) (.flush (.finish .commit)) := by
    simp [Session.step, hw, Session.called, Session.finish, hl, Session.askFlush, hh.worker, σ₁]
  -- whether it waits for room or for the flush, the call has been made
  have build : ∀ {s' : Session} {n' k'}, σ.session.step (.called (.finish .commit)) = (s', []) →
      s'.inherited = σ.session.inherited → s'.lifecycle = σ.session.lifecycle →
      s'.shared = σ.session.shared → Posed T { σ₁ with session := s' } n' k' → 0 < n' →
        Advance T σ (σ.act (.call (.finish .commit))) (.call (.finish .commit)) 0 k := by
    intro s' n' k' hs' hi hlc hsh hposed hpos
    have hscene : σ.act (.call (.finish .commit)) = { σ₁ with session := s' } := by
      simp [act, hw, perform, hs', hl, σ₁]
    have hshares : σ.session.Shares → s'.Shares := by
      unfold Session.Shares
      rw [hi, hlc, hsh]
      exact id
    have hupshot : Upshot σ { σ₁ with session := s' } (.call (.finish .commit)) 0 k n' k' :=
      .called rfl hpos (by rw [hl]) hshares
    rw [hscene]
    exact advance_aside hposed hupshot rfl id
  have hpush := push_flush hh₁
  by_cases hq : w.queue.length < σ.session.config.queueCapacity
  · rw [if_pos hq] at hpush
    let w' : Worker := Stance.queue { w with flushed := false } (.barrier .flush)
    let s' : Session := { σ₁.session with worker := some w', wait := .flush (.finish .commit) }
    have hholder : Holder T s' w' := hh₁.moves rfl rfl rfl rfl rfl fun _ => mem_queue_flush
    obtain ⟨n', k', hposed, hpos, -⟩ :=
      posed_queued (σ := { σ₁ with session := s' }) hholder hwork ⟨rfl, ho, hl, rfl⟩ rfl
    exact build (hstep.trans hpush) rfl rfl rfl hposed hpos
  · rw [if_neg hq] at hpush
    let w' : Worker := { w with flushed := false }
    let s' : Session := { σ₁.session with
      wait := .room (.barrier .flush) (.flush (.finish .commit)) }
    have hholder : Holder T s' w' := hh₁.moves rfl rfl rfl rfl rfl fun _ hm => Or.inl hm
    have hfull : s'.config.queueCapacity ≤ w'.queue.length := by
      show σ.session.config.queueCapacity ≤ w.queue.length
      omega
    have hposed : Posed T { σ₁ with session := s' } _ _ :=
      ⟨w', hholder, hwork, .crowded ⟨rfl, ho, hl, rfl⟩ hfull⟩
    exact build (hstep.trans hpush) rfl rfl rfl hposed (by omega)

/-! ### The broker -/

theorem act_reach_of_ne (hno : ∀ q, σ.own ≠ .sent q) (now : Span) (lost : Option BrokerError) :
    σ.act (.reach .own now lost) = σ := by
  unfold act
  cases ho : σ.own with
  | sent q => exact absurd ho (hno q)
  | idle => rfl
  | replied answer => rfl

theorem act_hear_of_ne (hno : ∀ answer, σ.own ≠ .replied answer) : σ.act (.hear .own) = σ := by
  unfold act
  cases ho : σ.own with
  | replied answer => exact absurd ho (hno answer)
  | idle => rfl
  | sent q => rfl

/-- The session's request reaches a broker that agrees. -/
theorem advance_reach (hh : Holder T σ.session w) (hwork : σ.work = .idle) (hp : Pose T σ w n k)
    (now : Span)
    (hok : (σ.chronicle.broker.handle now (.finish T.txid T.identity .commit)).2 = .ok .finished) :
    Advance T σ (σ.act (.reach .own now none)) (.reach .own now none) n k := by
  have hposed : Posed T σ n k := ⟨w, hh, hwork, hp⟩
  have idle : σ.own = .idle → ∀ q, σ.own ≠ .sent q := fun ho q => by simp [ho]
  cases hp with
  | resting k hw ho => exact advance_vain hposed (act_reach_of_ne (idle ho) now none) (Or.inl rfl)
  | crowded h | roomy h | flushing h | flushed h =>
    have hscene := act_reach_of_ne (idle h.own) now none
    exact advance_vain hposed hscene (Or.inr ⟨by omega, fun hm => hm⟩)
  | asking back h =>
    have hscene : σ.act (.reach .own now none) = { σ with
        chronicle := σ.chronicle.act (.request now (.finish T.txid T.identity .commit))
        own := .replied (.ok .finished) } := by
      simp [act, h.own, reachOwn, hok, reply]
    have hpose : Pose T { σ with
        chronicle := σ.chronicle.act (.request now (.finish T.txid T.identity .commit))
        own := .replied (.ok .finished) } w 1 .hear :=
      .answered back ⟨h.wait, rfl, h.now, h.call⟩
    have hless : 0 < 1 ∧ 1 < 2 := by omega
    rw [hscene]
    exact ⟨⟨1, .hear, ⟨w, hh, hwork, hpose⟩, .going rfl id (Or.inr (Or.inl hless))⟩,
      Or.inr ⟨now, rfl⟩⟩
  | answered back h =>
    have hscene := act_reach_of_ne (σ := σ) (fun q => by simp [h.own]) now none
    exact advance_vain hposed hscene (Or.inr ⟨by omega, fun hm => hm⟩)

/-- The session hears the answer. -/
theorem advance_hear (hh : Holder T σ.session w) (hwork : σ.work = .idle) (hp : Pose T σ w n k) :
    Advance T σ (σ.act (.hear .own)) (.hear .own) n k := by
  have hposed : Posed T σ n k := ⟨w, hh, hwork, hp⟩
  have idle : σ.own = .idle → ∀ answer, σ.own ≠ .replied answer := fun ho answer => by simp [ho]
  cases hp with
  | resting k hw ho => exact advance_vain hposed (act_hear_of_ne (idle ho)) (Or.inl rfl)
  | crowded h | roomy h | flushing h | flushed h =>
    exact advance_vain hposed (act_hear_of_ne (idle h.own)) (Or.inr ⟨by omega, fun hm => hm⟩)
  | asking back h =>
    have hscene := act_hear_of_ne (σ := σ) fun answer => by simp [h.own]
    exact advance_vain hposed hscene (Or.inr ⟨by omega, fun hm => hm⟩)
  | answered back h =>
    let σ₁ : Scene := { σ with own := .idle }
    have hstep : σ₁.session.step (.answered (.ok .finished)) = σ₁.session.conclude .commit := by
      simp [Session.step, Session.answered, h.wait, σ₁]
    have hscene : σ.act (.hear .own) = { σ with
        session := (σ.session.conclude .commit).1, own := .idle
        call := some ⟨.finish .commit, back, some (.ok .done)⟩ } := by
      have hact : σ.act (.hear .own) = σ₁.perform (.answered (.ok .finished)) := by
        simp [act, h.own, σ₁]
      exact hact.trans (perform_conclude hstep h.call)
    rw [hscene]
    exact advance_conclude hh hwork h.call fun _ => h.own

end Scene

open Scene in
/-- Every act of a session that is only asked to commit leads from pose to pose,
while the broker agrees to commit. -/
theorem Posed.act {T : Txn} {σ : Scene} {n : Nat} {k : Need} {a : Act} (h : Posed T σ n k)
    (ha : Presses a)
    (hok : ∀ now, (σ.chronicle.broker.handle now (.finish T.txid T.identity .commit)).2 =
      .ok .finished) : Advance T σ (σ.act a) a n k := by
  have hposed := h
  obtain ⟨w, hh, hwork, hp⟩ := h
  have hzero : n = 0 ∨ 0 < n := Nat.eq_zero_or_pos n
  cases a with
  | call op =>
    obtain rfl : op = .finish .commit := ha
    cases hp with
    | resting k hw ho hl hc =>
      rcases hl with hl | hl
      · exact advance_call_ready hh hwork hw ho hl hc
      · exact advance_call_inTransaction hh hwork hw ho hl
    | crowded h | roomy h | flushing h | flushed h | asking _ h | answered _ h =>
      exact advance_vain hposed (by simp [Scene.act, h.wait]) (Or.inr ⟨by omega, fun hm => hm⟩)
  | reach side now lost =>
    obtain rfl : lost = none := ha
    cases side with
    | own => exact advance_reach hh hwork hp now (hok now)
    | work =>
      exact advance_vain hposed (by simp [Scene.act, hwork])
        (hzero.imp_right fun hpos => ⟨hpos, by cases k <;> exact fun hm => hm⟩)
  | hear side =>
    cases side with
    | own => exact advance_hear hh hwork hp
    | work =>
      exact advance_vain hposed (by simp [Scene.act, hwork])
        (hzero.imp_right fun hpos => ⟨hpos, by cases k <;> exact fun hm => hm⟩)
  | wake => exact advance_wake hh hwork hp
  | round visible => exact advance_round hh hwork hp visible
  | others op => exact absurd ha id
  | refuse side e => exact absurd ha id
  | outwait => exact absurd ha id
  | drain => exact absurd ha id
  | die => exact absurd ha id

end FencedLog
