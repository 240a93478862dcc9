/-
# A session that has lost its authority

A session hears the answers to its own requests and, through its worker, those
to the worker's. A terminal error is known after an event just if it was known
before or the event notes it (`Session.halts_step`): the worker notes every
refusal that is fencing, the session only that a newer identity exists. With a
terminal error known nothing is enrolled and nothing is appended, and once the
worker is at rest no transaction begins (`Session.Shut`).

Key definitions: `Session.Hears`, `Session.Loses`, `Session.Notes`,
`Session.Overlooks`, `Session.Shut`, `Session.Halts`.
Key theorems: `Session.halts_step`, `Session.shut_of_notes`,
`Session.Shut.not_begins`.
-/
import FencedLog.Proofs.Delivery.Halt
import FencedLog.Proofs.Session.Accounted

namespace FencedLog

/-- Whether the request enrolls partitions or appends records. -/
def Request.writes : Request → Bool
  | .enroll .. | .append .. => true
  | .init .. | .finish .. | .listing _ => false

/-- Whether a beginning waits for room. -/
def Wait.begins : Wait → Bool
  | .room _ .begun => true
  | _ => false

namespace Session

/-- The requests among the effects that enroll or append. -/
def writes (effects : List Effect) : List Request :=
  effects.filterMap fun
    | .asked q | .deed (.request q) => if q.writes then some q else none
    | .deed (.completed ..) | .deed (.dropped _) | .returned _ | .disconnected => none

/-- The event brings this answer to a request of the session or its worker. -/
inductive Hears (s : Session) : Event → Request → Answer → Prop
  | own (q : Request) (answer : Answer) (h : s.stance.request? = some q) :
      Hears s (.answered answer) q answer
  | work (w : Worker) (q : Request) (answer : Answer) (hw : s.worker = some w)
      (h : w.request? = some q) : Hears s (.delivered answer) q answer

/-- The identity has lost its authority: a request to enroll, to append or to
end the transaction is refused for it. -/
def Loses (s : Session) (e : Event) : Prop :=
  ∃ q err, s.Hears e q (.error err) ∧ (q.writes = true ∨ ∃ x id o, q = .finish x id o) ∧
    err.isFencing = true

/-- A loss that is recorded: any that concerns the worker, and of a request to
end the transaction that a newer identity exists. -/
def Notes (s : Session) (e : Event) : Prop :=
  ∃ q err, s.Hears e q (.error err) ∧ ((q.writes = true ∧ err.isFencing = true) ∨
    (∃ x id o, q = .finish x id o) ∧ ∃ x n k, err = .fenced x n k)

/-- The other losses: a request to end the transaction is refused, since the
epoch or the producer is not that of the transactional id. -/
def Overlooks (s : Session) (e : Event) : Prop :=
  ∃ x id o err, s.Hears e (.finish x id o) (.error err) ∧
    ((∃ y n, err = .unknownEpoch y n) ∨ ∃ y p, err = .unmappedProducer y p)

/-- A beginning succeeds. -/
def Begins (s : Session) (e : Event) : Prop :=
  (e = .called .begin ∨ s.wait.begins = true) ∧ ∃ r, .returned (.ok r) ∈ (s.step e).2

/-- A terminal error is known, the worker waits for no answer, and no
transaction is about to begin. -/
structure Shut (s : Session) : Prop where
  fatal : s.shared.fatal ≠ none
  idles : ∀ w, s.worker = some w → w.request? = none
  unbegun : s.wait.begins = false

/-- What comes of an event, of which it is said whether it notes a loss. The
first terminal error stays, and a session that is shut acknowledges nothing. -/
structure Halts (s : Session) (noted : Prop) (r : Session × List Effect) : Prop where
  config : r.1.config = s.config
  fatal : r.1.shared.fatal ≠ none ↔ s.shared.fatal ≠ none ∨ noted
  keeps : s.shared.fatal ≠ none → r.1.shared.fatal = s.shared.fatal
  silent : r.1.shared.fatal ≠ none → writes r.2 = []
  shut : s.Shut → r.1.Shut
  acknowledged : s.Shut → r.1.shared.counters.acknowledged = s.shared.counters.acknowledged

/-! ### What is heard -/

variable {s : Session} {e : Event}

/-- What a worker asks for enrolls or appends. -/
theorem writes_of_worker {w : Worker} {q : Request} (h : w.request? = some q) : q.writes = true := by
  unfold Worker.request? at h
  split at h
  · rw [← Option.some.inj h]
    rfl
  · rw [← Option.some.inj h]
    rfl
  all_goals cases h

/-- A session itself asks for nothing of the kind; who ends a transaction waits
for it, and has an identity. -/
theorem request?_cases {q : Request} (h : s.stance.request? = some q) : q.writes = false ∧
    ∀ x id o, q = .finish x id o → s.identity = some id ∧ ∃ back, s.wait = .finish o back := by
  unfold Stance.request? at h
  split at h
  · rw [← Option.some.inj h]
    exact ⟨rfl, fun _ _ _ hq => nomatch hq⟩
  · rw [← Option.some.inj h]
    exact ⟨rfl, fun _ _ _ hq => nomatch hq⟩
  · rw [← Option.some.inj h]
    exact ⟨rfl, fun _ _ _ hq => nomatch hq⟩
  · rename_i o back hw
    obtain ⟨id, hid, rfl⟩ := Option.map_eq_some_iff.mp h
    refine ⟨rfl, fun x id' o' hq => ?_⟩
    obtain ⟨-, rfl, rfl⟩ := Request.finish.inj hq
    exact ⟨hid, back, hw⟩
  · cases h

/-- The answer to the request to end a transaction comes to a session that waits
for it. -/
theorem Hears.finish {x : String} {id : Identity} {o : Outcome} {answer : Answer}
    (h : s.Hears e (.finish x id o) answer) :
    e = .answered answer ∧ s.identity = some id ∧ ∃ back, s.wait = .finish o back := by
  cases h with
  | own _ _ hq => exact ⟨rfl, (request?_cases hq).2 _ _ _ rfl⟩
  | work w _ _ _ hq => exact absurd (writes_of_worker hq) (by simp [Request.writes])

/-- The answer to a request that enrolls or appends comes to the worker. -/
theorem Hears.write {q : Request} {answer : Answer} (h : s.Hears e q answer) (hq : q.writes = true) :
    e = .delivered answer ∧ ∃ w, s.worker = some w ∧ w.request? = some q := by
  cases h with
  | own _ _ h' => exact absurd hq (by simp [(request?_cases h').1])
  | work w _ _ hw h' => exact ⟨rfl, w, hw, h'⟩

/-- **Which losses are recorded.** -/
theorem loses_iff : s.Loses e ↔ s.Notes e ∨ s.Overlooks e := by
  constructor
  · rintro ⟨q, err, hh, hq | ⟨x, id, o, rfl⟩, herr⟩
    · exact Or.inl ⟨q, err, hh, Or.inl ⟨hq, herr⟩⟩
    · cases err with
      | fenced => exact Or.inl ⟨_, _, hh, Or.inr ⟨⟨x, id, o, rfl⟩, _, _, _, rfl⟩⟩
      | unknownEpoch => exact Or.inr ⟨x, id, o, _, hh, Or.inl ⟨_, _, rfl⟩⟩
      | unmappedProducer => exact Or.inr ⟨x, id, o, _, hh, Or.inr ⟨_, _, rfl⟩⟩
      | _ => cases herr
  · rintro (⟨q, err, hh, ⟨hq, herr⟩ | ⟨hq, x, n, k, rfl⟩⟩ | ⟨x, id, o, err, hh, herr⟩)
    · exact ⟨q, err, hh, Or.inl hq, herr⟩
    · exact ⟨q, _, hh, Or.inr hq, rfl⟩
    · refine ⟨_, err, hh, Or.inr ⟨x, id, o, rfl⟩, ?_⟩
      rcases herr with ⟨y, n, rfl⟩ | ⟨y, p, rfl⟩ <;> rfl

/-- A worker that waits for an answer notes its refusal. -/
theorem notes_delivered {w : Worker} (hw : s.worker = some w) (answer : Answer) :
    s.Notes (.delivered answer) ↔
      ∃ q err, w.request? = some q ∧ answer = .error err ∧ err.isFencing = true := by
  constructor
  · rintro ⟨q, err, hh, ⟨hq, herr⟩ | ⟨⟨x, id, o, rfl⟩, -⟩⟩
    · obtain ⟨he, w', hw', hq'⟩ := hh.write hq
      obtain rfl : w = w' := Option.some.inj (hw.symm.trans hw')
      exact ⟨q, err, hq', Event.delivered.inj he, herr⟩
    · cases hh.finish.1
  · rintro ⟨q, err, hq, rfl, herr⟩
    exact ⟨q, err, .work w q _ hw hq, Or.inl ⟨writes_of_worker hq, herr⟩⟩

/-- A session that waits for the end of its transaction notes a newer identity. -/
theorem notes_answered (answer : Answer) : s.Notes (.answered answer) ↔
    s.identity ≠ none ∧ ∃ o back x n k, s.wait = .finish o back ∧ answer = .error (.fenced x n k) := by
  constructor
  · rintro ⟨q, err, hh, ⟨hq, -⟩ | ⟨⟨x, id, o, rfl⟩, y, n, k, rfl⟩⟩
    · cases (hh.write hq).1
    · obtain ⟨he, hid, back, hw⟩ := hh.finish
      exact ⟨by simp [hid], o, back, y, n, k, hw, Event.answered.inj he⟩
  · rintro ⟨hid, o, back, x, n, k, hw, rfl⟩
    obtain ⟨id, hid⟩ := Option.ne_none_iff_exists'.mp hid
    have hq : s.stance.request? = some (.finish s.config.txid id o) := by
      simp [Stance.request?, stance, hw, hid]
    exact ⟨_, _, .own _ _ hq, Or.inr ⟨⟨_, _, _, rfl⟩, x, n, k, rfl⟩⟩

theorem not_notes (ha : ∀ answer, e ≠ .answered answer) (hd : ∀ answer, e ≠ .delivered answer) :
    ¬ s.Notes e := by
  rintro ⟨q, err, hh, -⟩
  cases hh with
  | own => exact ha _ rfl
  | work => exact hd _ rfl

/-! ### The operations -/

variable {noted : Prop} {r : Session × List Effect}

theorem writes_append (xs ys : List Effect) : writes (xs ++ ys) = writes xs ++ writes ys :=
  List.filterMap_append

/-- A worker that asks for nothing does not write. -/
theorem writes_deeds : ∀ deeds : List Deed, requests deeds = [] → writes (deeds.map .deed) = []
  | [], _ => rfl
  | .request _ :: _, h => nomatch h
  | .completed .. :: deeds, h => writes_deeds deeds h
  | .dropped _ :: deeds, h => writes_deeds deeds h

/-- The session moves on in a way that does not matter here. -/
theorem halts_of (hc : r.1.config = s.config) (hf : r.1.shared.fatal = s.shared.fatal)
    (ha : r.1.shared.counters.acknowledged = s.shared.counters.acknowledged)
    (he : writes r.2 = []) (hw : s.Shut → ∀ w, r.1.worker = some w → w.request? = none)
    (hb : s.Shut → r.1.wait.begins = false) : s.Halts False r where
  config := hc
  fatal := by rw [hf, or_false]
  keeps := fun _ => hf
  silent := fun _ => he
  shut := fun h => ⟨hf ▸ h.fatal, hw h, hb h⟩
  acknowledged := fun _ => ha

/-- The operation ends or waits, and the worker is left alone. -/
theorem halts_rests (hc : r.1.config = s.config) (hf : r.1.shared.fatal = s.shared.fatal)
    (ha : r.1.shared.counters.acknowledged = s.shared.counters.acknowledged)
    (he : writes r.2 = []) (hw : r.1.worker = s.worker) (hb : r.1.wait.begins = false) :
    s.Halts False r :=
  halts_of hc hf ha he (fun h => hw ▸ h.idles) fun _ => hb

/-- Nothing happens. -/
theorem halts_same (s : Session) : s.Halts False (s, []) :=
  ⟨rfl, by simp, fun _ => rfl, fun _ => rfl, id, fun _ => rfl⟩

/-- What was changed before does not matter either. -/
theorem Halts.after {s₁ : Session} (h : s₁.Halts noted r) (hs : s₁.config = s.config)
    (hf : s₁.shared.fatal = s.shared.fatal)
    (ha : s₁.shared.counters.acknowledged = s.shared.counters.acknowledged)
    (hk : s.Shut → s₁.Shut) : s.Halts noted r where
  config := h.config.trans hs
  fatal := hf ▸ h.fatal
  keeps := hf ▸ h.keeps
  silent := h.silent
  shut := fun hshut => h.shut (hk hshut)
  acknowledged := fun hshut => (h.acknowledged (hk hshut)).trans ha

theorem halts_push (s : Session) (m : Message) (next : AfterPush) (hb : s.Shut → next ≠ .begun) :
    s.Halts False (s.push m next) := by
  rcases stance_push (rfl : s.stance = s.stance) with ⟨w, hw, -, he⟩ | ⟨w, hw, -, he⟩ | ⟨-, he⟩
  · rw [he]
    have queued : s.Shut → ∀ w', some (Stance.queue w m) = some w' → w'.request? = none := by
      intro h w' hw'
      rw [← Option.some.inj hw']
      exact h.idles w hw
    cases next <;> exact halts_of rfl rfl rfl rfl queued fun _ => rfl
  · rw [he]
    refine halts_of rfl rfl rfl rfl (fun h => h.idles) fun h => ?_
    cases next with
    | begun => exact absurd rfl (hb h)
    | _ => rfl
  · rw [he]
    cases next with
    | sent => cases m <;> exact halts_rests rfl rfl rfl rfl rfl rfl
    | begun => exact halts_rests rfl rfl rfl rfl rfl rfl
    | flush next => exact halts_rests rfl rfl rfl rfl rfl rfl

/-- A draft that has been routed comes up to the queue. -/
theorem halts_enqueue {s₁ : Session} (hs : s₁.config = s.config)
    (hf : s₁.shared.fatal = s.shared.fatal)
    (ha : s₁.shared.counters.acknowledged = s.shared.counters.acknowledged)
    (hk : s.Shut → s₁.Shut) (draft : Draft) (ticket : Ticket)
    (present : Int) (target : Except DeliveryError TopicPartition) :
    s.Halts False (s₁.enqueue draft ticket present target) :=
  (halts_push _ (.send ⟨target, draft.record present, ticket⟩) .sent
    fun _ h => nomatch h).after hs hf ha
      fun h => ⟨(hk h).fatal, (hk h).idles, (hk h).unbegun⟩

theorem fatal_route (s : Session) (draft : Draft) (count : Nat) :
    (s.route draft count).1.shared.fatal = s.shared.fatal := by
  rcases shared_route s draft count with h | h
  · rw [h]
  · rw [h]
    rfl

theorem halts_routed (s : Session) {s₁ : Session} (hs : s₁.config = s.config)
    (hf : s₁.shared.fatal = s.shared.fatal)
    (ha : s₁.shared.counters.acknowledged = s.shared.counters.acknowledged)
    (hw : s₁.worker = s.worker) (hwait : s₁.wait = s.wait) (draft : Draft) (count : Nat) (ticket : Ticket) (present : Int) :
    s.Halts False ((s₁.route draft count).1.enqueue draft ticket present (s₁.route draft count).2) := by
  have hst := stance_route s₁ draft count
  refine halts_enqueue ((congrArg Stance.config hst).trans hs) ((fatal_route s₁ draft count).trans hf)
    ((congrArg Counters.acknowledged (counters_route s₁ draft count)).trans ha)
    (fun h => ⟨?_, fun w hw' => h.idles w ?_, ?_⟩) draft ticket present _
  · rw [fatal_route, hf]
    exact h.fatal
  · exact hw.symm.trans ((congrArg Stance.worker hst).symm.trans hw')
  · exact (congrArg Wait.begins ((congrArg Stance.wait hst).trans hwait)).trans h.unbegun

theorem halts_conclude (s : Session) (o : Outcome) : s.Halts False (s.conclude o) := by
  cases o <;> exact halts_rests rfl rfl rfl rfl rfl rfl

theorem halts_askFinish (s : Session) (o : Outcome) (back : Lifecycle) :
    s.Halts False (s.askFinish o back) := by
  unfold askFinish
  cases s.identity with
  | some id => exact halts_rests rfl rfl rfl rfl rfl rfl
  | none => exact halts_rests rfl rfl rfl rfl rfl rfl

theorem halts_flushed (s : Session) (next : AfterFlush) : s.Halts False (s.flushed next) := by
  cases next with
  | report => exact halts_rests rfl rfl rfl rfl rfl rfl
  | finish o =>
    simp only [flushed, finishFlushed]
    split
    · exact halts_rests rfl rfl rfl rfl rfl rfl
    · exact halts_conclude s _
    · split
      · exact halts_askFinish s _ _
      · exact halts_conclude s _

theorem halts_askFlush (s : Session) (next : AfterFlush) : s.Halts False (s.askFlush next) := by
  unfold askFlush
  split
  · exact halts_flushed s next
  · rename_i w hw
    refine (halts_push _ (.barrier .flush) (.flush next) fun _ h => nomatch h).after rfl rfl rfl
      fun h => ⟨h.fatal, fun w' hw' => ?_, h.unbegun⟩
    rw [← Option.some.inj hw']
    exact h.idles w hw

theorem halts_acquire (s : Session) (id : Identity) (inherited : Bool)
    (r : Except SessionError Report) : s.Halts False ((s.acquire id inherited).finished r) := by
  refine halts_of rfl rfl rfl rfl (fun _ w hw => ?_) fun _ => rfl
  rw [← Option.some.inj hw]
  rfl

theorem halts_resume (s : Session) (producer epoch : Int) :
    s.Halts False (s.resume producer epoch) := by
  unfold Session.resume
  split
  · exact halts_rests rfl rfl rfl rfl rfl rfl
  · exact halts_acquire s _ _ _

theorem halts_begin (s : Session) : s.Halts False s.begin := by
  unfold begin
  split
  · exact halts_rests rfl rfl rfl rfl rfl rfl
  · rename_i hf
    -- with a terminal error known it does not come this far
    exact (halts_push { s with shared := { s.shared with started := false } }
      (.barrier .newTransaction) .begun fun h => absurd hf h.fatal).after rfl rfl rfl
        fun h => ⟨h.fatal, h.idles, h.unbegun⟩

theorem halts_finish (s : Session) (name : String) (o : Outcome) :
    s.Halts False (s.finish name o) := by
  unfold Session.finish
  split
  · exact halts_rests rfl rfl rfl rfl rfl rfl
  · exact halts_rests rfl rfl rfl rfl rfl rfl
  · split
    · exact halts_askFinish s o _
    · exact halts_rests rfl rfl rfl rfl rfl rfl
  all_goals exact halts_askFlush s _

theorem halts_close (s : Session) : s.Halts False s.close := by
  unfold close
  split
  · exact halts_rests rfl rfl rfl rfl rfl rfl
  · dsimp only
    split
    · exact halts_rests rfl rfl rfl rfl rfl rfl
    · exact halts_rests rfl rfl rfl rfl rfl rfl

/-- No call records a terminal error. -/
theorem halts_called (s : Session) (op : Operation) : s.Halts False (s.called op) := by
  cases op with
  | init =>
    simp only [called]
    split
    · exact halts_rests rfl rfl rfl rfl rfl rfl
    · exact halts_rests rfl rfl rfl rfl rfl rfl
  | resume producer epoch =>
    simp only [called]
    split
    · exact halts_resume s _ _
    · exact halts_rests rfl rfl rfl rfl rfl rfl
  | resumeFrom token =>
    simp only [called]
    split
    · exact halts_rests rfl rfl rfl rfl rfl rfl
    · split
      · exact halts_rests rfl rfl rfl rfl rfl rfl
      · exact halts_resume s _ _
  | begin =>
    simp only [called]
    split
    · exact halts_begin s
    · exact halts_rests rfl rfl rfl rfl rfl rfl
  | send draft ticket present =>
    simp only [called]
    split
    · unfold Session.send
      split
      · exact halts_routed s rfl rfl rfl rfl rfl draft _ ticket present
      · exact halts_rests rfl rfl rfl rfl rfl rfl
    · exact halts_rests rfl rfl rfl rfl rfl rfl
  | flush =>
    simp only [called]
    split
    · exact halts_rests rfl rfl rfl rfl rfl rfl
    · exact halts_askFlush s _
  | finish o => cases o <;> exact halts_finish s _ _
  | listing topic =>
    simp only [called]
    split
    · exact halts_rests rfl rfl rfl rfl rfl rfl
    · exact halts_rests rfl rfl rfl rfl rfl rfl
  | close => exact halts_close s

/-! ### Events -/

/-- A refusal to end the transaction does not replace the error that is known. -/
theorem shared_finishRefused (s : Session) (back : Lifecycle) (e : BrokerError) :
    (s.shared.fatal ≠ none → (s.finishRefused back e).1.shared.fatal = s.shared.fatal) ∧
      (s.finishRefused back e).1.shared.counters.acknowledged = s.shared.counters.acknowledged := by
  unfold finishRefused failed finished
  cases e <;> cases s.identity <;> cases hf : s.shared.fatal <;> simp [Shared.latch, hf]

/-- Of all answers to the session only one of them is noted. -/
theorem halts_answered (s : Session) (answer : Answer) :
    s.Halts (s.Notes (.answered answer)) (s.answered answer) := by
  by_cases hn : ∃ o back e, s.wait = .finish o back ∧ answer = .error e
  · obtain ⟨o, back, e, hw, rfl⟩ := hn
    have hnotes : s.Notes (.answered (.error e)) ↔
        s.identity ≠ none ∧ ∃ x n k, e = .fenced x n k := by
      rw [notes_answered]
      simp [hw]
    have hstep : s.answered (.error e) = s.finishRefused back e := by simp only [answered, hw]
    rw [hstep]
    obtain ⟨hkeeps, hacknowledged⟩ := shared_finishRefused s back e
    refine ⟨rfl, by rw [hnotes, fatal_finishRefused], hkeeps, fun _ => rfl,
      fun h => ⟨?_, h.idles, rfl⟩, fun _ => hacknowledged⟩
    rw [fatal_finishRefused]
    exact Or.inl h.fatal
  · have hnotes : ¬ s.Notes (.answered answer) := by
      rw [notes_answered]
      rintro ⟨-, o, back, x, n, k, hw, rfl⟩
      exact hn ⟨o, back, _, hw, rfl⟩
    rw [eq_false hnotes]
    unfold answered
    split
    · exact halts_acquire s _ _ _
    · exact halts_rests rfl rfl rfl rfl rfl rfl
    · exact halts_rests rfl rfl rfl rfl rfl rfl
    · exact halts_rests rfl rfl rfl rfl rfl rfl
    · rename_i draft ticket present infos hw
      have hlearned : (s.learn draft.topic infos).config = s.config := rfl
      exact halts_routed s hlearned rfl rfl rfl rfl draft infos.length ticket present
    · exact halts_enqueue rfl rfl rfl id _ _ _ _
    · exact halts_conclude s _
    · rename_i o back e hw
      exact absurd ⟨o, back, e, hw, rfl⟩ hn
    · exact halts_same s

theorem halts_woken (s : Session) : s.Halts False s.woken := by
  have stay : s.Halts False (s, []) := halts_same s
  unfold woken
  split
  · rename_i m next hw
    refine halts_push s m next fun h hb => ?_
    have := h.unbegun
    rw [hw, hb] at this
    cases this
  · split
    · split
      · exact halts_flushed s _
      · split
        · exact halts_rests rfl rfl rfl rfl rfl rfl
        · exact stay
    · exact halts_rests rfl rfl rfl rfl rfl rfl
  · split
    · exact halts_rests rfl rfl rfl rfl rfl rfl
    · exact stay
  · exact stay

/-- What comes of a move of the worker comes of it for the session. -/
theorem halts_deliver (s : Session) {f : Delivery → Delivery × List Deed}
    (h : ∀ w, s.worker = some w → Delivery.Halts ⟨w, s.shared⟩ noted (f ⟨w, s.shared⟩))
    (hnone : s.worker = none → ¬ noted) : s.Halts noted (s.deliver f) := by
  unfold deliver
  split
  · rename_i hw
    exact ⟨rfl, by simp [hnone hw], fun _ => rfl, fun _ => rfl, id, fun _ => rfl⟩
  · rename_i w hw
    have hd := h w hw
    refine ⟨rfl, hd.fatal, hd.keeps, fun hf => writes_deeds _ (hd.silent hf), fun hshut => ?_,
      fun hshut => hd.acknowledged hshut.fatal (hshut.idles w hw)⟩
    have hf := hd.fatal.mpr (Or.inl hshut.fatal)
    refine ⟨hf, fun w' hw' => ?_, hshut.unbegun⟩
    rw [← Option.some.inj hw']
    exact hd.idles hf (Or.inr (hshut.idles w hw))

/-- **One event of a session.** A terminal error is known afterwards if and only
if it was known before or a loss is noted. Then nothing is enrolled or appended,
and a session that is shut stays so. -/
theorem halts_step (s : Session) (e : Event) : s.Halts (s.Notes e) (s.step e) := by
  have aside : (∀ answer, e ≠ .answered answer) → (∀ answer, e ≠ .delivered answer) →
      s.Halts False (s.step e) → s.Halts (s.Notes e) (s.step e) := by
    intro ha hd h
    rwa [eq_false (not_notes ha hd)]
  cases e with
  | called op =>
    refine aside (by simp) (by simp) ?_
    rw [step]
    split
    · exact halts_called s op
    · exact halts_same s
  | answered answer => exact halts_answered s answer
  | woken => exact aside (by simp) (by simp) (halts_woken s)
  | outwaited =>
    refine aside (by simp) (by simp) ?_
    have hkill : s.Halts False (s.deliver Delivery.kill) :=
      halts_deliver s (fun w _ => Delivery.halts_kill _) fun _ => id
    simp only [step, outwaited]
    split
    · refine ⟨hkill.config, hkill.fatal, hkill.keeps, fun hf => ?_, fun h => ?_, hkill.acknowledged⟩
      · rw [writes_append, hkill.silent hf]
        rfl
      · exact ⟨(hkill.shut h).fatal, (hkill.shut h).idles, rfl⟩
    · exact halts_same s
  | abandoned =>
    exact aside (by simp) (by simp) (halts_rests rfl rfl rfl rfl rfl rfl)
  | round visible =>
    have hround : s.Halts False (s.deliver (·.round visible)) :=
      halts_deliver s (fun w _ => Delivery.halts_round _ visible) fun _ => id
    exact aside (by simp) (by simp) hround
  | delivered answer =>
    have hanswered : s.Halts (s.Notes (.delivered answer)) (s.deliver (·.answered answer)) := by
      refine halts_deliver s (fun w hw => ?_) fun hw => ?_
      · rw [notes_delivered hw]
        exact Delivery.halts_answered ⟨w, s.shared⟩ answer
      · rintro ⟨q, err, hh, -⟩
        cases hh with
        | work w _ _ hw' =>
          rw [hw] at hw'
          cases hw'
    exact hanswered
  | drained =>
    refine aside (by simp) (by simp) ?_
    rw [step]
    split
    · exact halts_same s
    · exact halts_deliver s (fun w _ => Delivery.halts_drained _) fun _ => id
  | died =>
    exact aside (by simp) (by simp) (halts_deliver s (fun w _ => Delivery.halts_kill _) fun _ => id)

/-! ### From the loss on -/

/-- A loss that is noted shuts the session. What was heard of was the end of a
transaction, or the worker was busy; either way none is about to begin. -/
theorem shut_of_notes {own work : Line} {call : Option Call} (hc : Coupled s.stance own work call)
    (hn : s.Notes e) : (s.step e).1.Shut := by
  have hfatal := (halts_step s e).fatal.mpr (Or.inr hn)
  -- outside of a transaction the worker waits for no answer
  have resting : ∀ w, s.worker = some w → s.lifecycle ≠ .inTransaction → s.lifecycle ≠ .closed →
      w.request? = none := fun w hw hl hcl =>
    Worker.request?_eq_none.mpr ((hc.manned w hw).shape.resting hl hcl).1
  obtain ⟨q, err, hh, herr⟩ := id hn
  cases hh with
  | work w q _ hw hq =>
    refine ⟨hfatal, fun w' hw' => ?_, ?_⟩
    · have hd := Delivery.halts_answered ⟨w, s.shared⟩ (.error err)
      have hdeliver : (s.step (.delivered (.error err))).1 =
          { s with
            worker := some (Delivery.answered ⟨w, s.shared⟩ (.error err)).1.worker
            shared := (Delivery.answered ⟨w, s.shared⟩ (.error err)).1.shared } := by
        simp only [step, deliver, hw]
      rw [hdeliver] at hfatal hw'
      rw [← Option.some.inj hw']
      exact hd.idles hfatal (Or.inl ((notes_delivered hw _).mp hn))
    · have hwait : (s.step (.delivered (.error err))).1.wait = s.wait := by
        simp only [step, deliver, hw]
      rw [hwait]
      by_contra hb
      obtain ⟨m, hroom⟩ : ∃ m, s.stance.wait = .room m .begun := by
        show ∃ m, s.wait = .room m .begun
        unfold Wait.begins at hb
        split at hb
        · rename_i m hroom
          exact ⟨m, hroom⟩
        · exact absurd rfl hb
      obtain ⟨op, lc, -, hrun⟩ := hc.running (by simp [hroom])
      rw [hroom] at hrun
      cases hrun with
      | beginning hl =>
        have hl' : s.lifecycle = .ready := hl
        rw [resting w hw (by simp [hl']) (by simp [hl'])] at hq
        cases hq
  | own q _ hq =>
    rcases herr with ⟨hwrites, -⟩ | ⟨⟨x, id, o, rfl⟩, -⟩
    · simp [(request?_cases hq).1] at hwrites
    · obtain ⟨-, back, hw⟩ := (request?_cases hq).2 x id o rfl
      have hstep : s.step (.answered (.error err)) = s.finishRefused back err := by
        simp only [step, answered, hw]
      refine ⟨hfatal, fun w hw' => ?_, ?_⟩
      · obtain ⟨op, lc, -, hrun⟩ := hc.running (by simp [stance, hw])
        rw [show s.stance.wait = _ from hw] at hrun
        rw [hstep] at hw'
        cases hrun with
        | finishing _ _ hl =>
          have hl' : s.lifecycle = o.ending := hl
          exact resting w hw' (by cases o <;> simp [hl', Outcome.ending])
            (by cases o <;> simp [hl', Outcome.ending])
      · rw [hstep]
        rfl

/-- A session that is shut begins no transaction. -/
theorem Shut.not_begins (h : s.Shut) (e : Event) : ¬ s.Begins e := by
  rintro ⟨rfl | hb, r, hr⟩
  · rw [step] at hr
    split at hr
    · simp only [called] at hr
      split at hr
      · obtain ⟨err, he⟩ := Option.ne_none_iff_exists'.mp h.fatal
        simp [begin, he, failed, finished] at hr
      · simp [illegal, failed, finished] at hr
    · cases hr
  · rw [h.unbegun] at hb
    cases hb

theorem Shut.run (h : s.Shut) (es : List Event) : (s.run es).1.Shut :=
  run_keeps (fun s e => (halts_step s e).shut) es s h

/-- With a terminal error known nothing is enrolled or appended any more. -/
theorem silent_run : ∀ (es : List Event) (s : Session), s.shared.fatal ≠ none → writes (s.run es).2 = []
  | [], _, _ => rfl
  | e :: es, s, h => by
    have hfatal := (halts_step s e).fatal.mpr (Or.inl h)
    have hstep := (halts_step s e).silent hfatal
    have hrun := silent_run es (s.step e).1 hfatal
    simp only [Session.run, writes_append, hstep, hrun, List.append_nil]

theorem config_run (s : Session) (es : List Event) : (s.run es).1.config = s.config :=
  run_keeps (P := fun t => t.config = s.config) (fun t e h => (halts_step t e).config.trans h) es s rfl

end Session
end FencedLog
