/-
# Where a record is appended

A worker appends to the partitions that it has enrolled, and knows nothing of
the coordinator's transactions. As long as nobody else writes under its
identity, a record goes into the transaction in which its partition was
enrolled last, or is refused (`Enlisted`).

Key definitions: `Worker.Registered`, `Assigned`, `Enlisted`.
Key theorem: `Scene.Enlisted.step`.
-/
import FencedLog.Proofs.Broker.Last
import FencedLog.Proofs.Scene.Steps

namespace FencedLog

/-! ### Enrollments -/

namespace Chapter

variable {chapter : Chapter} {p : TopicPartition} {T : Txn}

theorem enrolledIn_mem (h : chapter.enrolledIn p = some T) : ∃ e ∈ chapter.enrollments, e.2 = some T := by
  obtain ⟨e, he, hT⟩ := Option.bind_eq_some_iff.mp h
  exact ⟨e, List.mem_reverse.mp (List.mem_of_find?_eq_some he), hT⟩

theorem enrolledIn_note {x : String} {id : Identity} {ps : List TopicPartition} {txn : Option Txn} :
    (chapter.note txn (.enroll x id ps) (.ok .enrolled)).enrolledIn p =
      if p ∈ ps then txn else chapter.enrolledIn p := by
  simp only [note, enrolledIn, List.reverse_append, List.reverse_cons, List.reverse_nil,
    List.nil_append, List.singleton_append, List.find?_cons]
  by_cases hp : p ∈ ps
  · simp [hp]
  · simp [hp]

theorem newest_mem (h : chapter.newest = some T) : ∃ e ∈ chapter.enrollments, e.2 = some T := by
  obtain ⟨e, he, hT⟩ := Option.bind_eq_some_iff.mp h
  exact ⟨e, List.mem_of_getLast? he, hT⟩

theorem newest_note {x : String} {id : Identity} {ps : List TopicPartition} {txn : Option Txn} :
    (chapter.note txn (.enroll x id ps) (.ok .enrolled)).newest = txn := by
  simp [note, newest]

end Chapter

theorem mem_written {p : TopicPartition} {txn : Option Txn} {x : Writ} :
    ∀ {records : List Record} {base : Nat}, x ∈ written p txn base records →
      x.partition = p ∧ x.txn = txn
  | r :: rs, base, h => by
    rcases List.mem_cons.mp h with rfl | h
    · exact ⟨rfl, rfl⟩
    · exact mem_written h

/-! ### What a worker has registered -/

/-- A partition is enrolled, and the worker is not about to forget it. -/
def Worker.Registered (w : Worker) (p : TopicPartition) : Prop :=
  w.phase ≠ .stopped ∧ .barrier .newTransaction ∉ w.agenda ∧ p ∈ w.enrolled

theorem Worker.Alike.registered {w w' : Worker} (h : w.Alike w') (p : TopicPartition) :
    w'.Registered p ↔ w.Registered p := by
  obtain ⟨tail, flushed, ht, rfl⟩ := h
  rcases ht with rfl | rfl <;> simp [Registered, agenda]

theorem registered_queue_send (w : Worker) (m : Pending) (p : TopicPartition) :
    (Stance.queue w (.send m)).Registered p ↔ w.Registered p := by
  rw [Worker.Registered, agenda_queue]
  simp [Worker.Registered, Stance.queue]

theorem not_registered_queue_begin (w : Worker) (p : TopicPartition) :
    ¬ (Stance.queue w (.barrier .newTransaction)).Registered p := fun h => by
  rw [Worker.Registered, agenda_queue] at h
  exact h.2.1 (by simp)

/-- What a worker goes on with is what it is about to keep. -/
theorem Source.registered {w w₀ w' : Worker} {work : Line} {barrier : Option Barrier}
    {loads : List Freight} {acked : List (Ticket × Placement)} {err : Option BrokerError}
    {q : Option Request} (hs : Source w work w₀ barrier loads acked err)
    (hn : w₀.Next barrier loads w' q) (p : TopicPartition) :
    w'.Registered p ↔ .barrier .newTransaction ∉ w.agenda ∧ p ∈ w₀.enrolled := by
  -- the barrier that is gone on with was ahead, and so is what is left
  have hagenda : .barrier .newTransaction ∈ w.agenda ↔
      barrier = some .newTransaction ∨ .barrier .newTransaction ∈ w₀.queue := by
    cases hs with
    | round pending barrier rest hp hq =>
      simp [Worker.agenda, hp, Phase.barrier, hq]
    | enrolled fresh batches barrier hp => simp [Worker.agenda, hp, Phase.barrier]
    | appended batch rest barrier base hp => simp [Worker.agenda, hp, Phase.barrier]
    | refused loads e hi hs' => simp [Worker.agenda]
  rw [hagenda]
  cases hn with
  | reach =>
    cases barrier with
    | none => simp [Worker.Registered, Worker.reached, Worker.agenda, Phase.barrier]
    | some b =>
      cases b <;> simp [Worker.Registered, Worker.reached, Worker.agenda, Phase.barrier]
  | enroll fresh batches => simp [Worker.Registered, Worker.agenda, Phase.barrier]
  | append batch rest => simp [Worker.Registered, Worker.agenda, Phase.barrier]

/-! ### The invariant -/

/-- A partition is enrolled in a transaction, and in no other one that is open
under the worker's identity. -/
def Assigned (c : Chronicle) (chapter : Chapter) (w : Worker) (p : TopicPartition) : Prop :=
  ∃ T, chapter.enrolledIn p = some T ∧ ∀ U, c.Open U → c.Enrolled U p → U.txid = w.txid →
    U.identity = w.identity → U = T

/-- What is known of the enrollments and the records of a chapter. -/
structure Enlisted (c : Chronicle) (chapter : Chapter) (w : Worker) (work : Line) : Prop where
  /-- Enrollments are in transactions of the worker's identity. -/
  own : ∀ e ∈ chapter.enrollments, ∃ T, e.2 = some T ∧ T.txid = w.txid ∧ T.identity = w.identity ∧
    c.Begun T
  /-- A record is in the transaction in which its partition was enrolled last. -/
  writs : ∀ x ∈ chapter.writs, x.txn = chapter.enrolledIn x.partition ∧ x.txn ≠ none ∧
    (w.phase ≠ .stopped → w.Registered x.partition)
  assigned : ∀ p, w.Registered p → Assigned c chapter w p
  /-- So are the partitions whose enrollment is about to be heard of. -/
  fresh : ∀ fresh batches barrier, w.phase = .enrolling fresh batches barrier →
    work = .replied (.ok .enrolled) → ∀ p ∈ fresh, Assigned c chapter w p
  tracked : ∀ T, chapter.newest = some T → c.Tracked T

namespace Enlisted

variable {c : Chronicle} {chapter : Chapter} {w : Worker} {work : Line}

theorem newest_own (h : Enlisted c chapter w work) {T : Txn} (hT : chapter.newest = some T) :
    T.txid = w.txid ∧ T.identity = w.identity := by
  obtain ⟨e, he, heT⟩ := Chapter.newest_mem hT
  obtain ⟨T', hT', hx, hid, -⟩ := h.own e he
  obtain rfl := Option.some.inj (hT'.symm.trans heT)
  exact ⟨hx, hid⟩

/-- Enrollments stay where they are. -/
theorem own_act (h : Enlisted c chapter w work) (hk : c.Kept) (op : Broker.Op) :
    ∀ e ∈ chapter.enrollments, ∃ T, e.2 = some T ∧ T.txid = w.txid ∧ T.identity = w.identity ∧
      (c.act op).Begun T := fun e he => by
  obtain ⟨T, hT, hx, hid, hb⟩ := h.own e he
  exact ⟨T, hT, hx, hid, hb.act hk op⟩

/-- Whoever else does something, short of enrolling for the worker. -/
theorem assigned_act (hs : c.broker.coordinator.Sound) {op : Broker.Op} {p : TopicPartition}
    (ha : Assigned c chapter w p)
    (hop : ∀ now ps, op = .request now (.enroll w.txid w.identity ps) → p ∉ ps) :
    Assigned (c.act op) chapter w p := by
  obtain ⟨T, hT, huniq⟩ := ha
  refine ⟨T, hT, fun U ho he hx hid => ?_⟩
  rcases Chronicle.enrolled_act hs ho he with ⟨ho', he'⟩ | ⟨now, ps, hop', hp⟩
  · exact huniq U ho' he' hx hid
  · rw [hx, hid] at hop'
    exact absurd hp (hop now ps hop')

theorem act (h : Enlisted c chapter w work) (ha : c.Accounted) {op : Broker.Op}
    (hop : ∀ now ps, op ≠ .request now (.enroll w.txid w.identity ps)) {work' : Line}
    (hw : work' = .replied (.ok .enrolled) → work = .replied (.ok .enrolled)) :
    Enlisted (c.act op) chapter w work' where
  own := h.own_act ha.kept op
  writs := h.writs
  assigned := fun p hp => assigned_act ha.coordinator (h.assigned p hp)
    fun now ps he => absurd he (hop now ps)
  fresh := fun f b k hp hl p hpf => assigned_act ha.coordinator (h.fresh f b k hp (hw hl) p hpf)
    fun now ps he => absurd he (hop now ps)
  tracked := fun T hT => by
    refine Chronicle.tracked_act ha.coordinator ha.kept (h.tracked T hT) fun now ps => ?_
    obtain ⟨hx, hid⟩ := h.newest_own hT
    rw [hx, hid]
    exact hop now ps

/-- The worker enrolls partitions that it has not enrolled yet. -/
theorem enroll (h : Enlisted c chapter w work) (ha : c.Accounted) {ps : List TopicPartition}
    {batches : List (Batch Load)} {barrier : Option Barrier}
    (hp : w.phase = .enrolling ps batches barrier) (hnew : ∀ p ∈ ps, p ∉ w.enrolled) (now : Span)
    (lost : Option BrokerError) :
    let c' := c.act (.request now (.enroll w.txid w.identity ps))
    let answer := (c.broker.handle now (.enroll w.txid w.identity ps)).2
    Enlisted c' (chapter.note (c'.ledger.current c'.broker.coordinator w.txid)
      (.enroll w.txid w.identity ps) answer) w (Scene.reply answer lost) := by
  intro c' answer
  -- a registered partition is not enrolled again
  have old : ∀ p, w.Registered p → p ∉ ps := fun p hr hps => hnew p hps hr.2.2
  have kept : ∀ p, Assigned c chapter w p → p ∉ ps → Assigned c' chapter w p := fun p has hps => by
    refine assigned_act ha.coordinator has fun now' ps' he => ?_
    obtain ⟨-, he⟩ := Broker.Op.request.inj he
    obtain ⟨-, -, rfl⟩ := Request.enroll.inj he
    exact hps
  rcases fits_enroll (fits_handle c.broker now (.enroll w.txid w.identity ps)) with hok | ⟨e, he⟩
  · obtain ⟨T, hT, hx, hid, ho⟩ := Chronicle.enroll_ok ha.coordinator hok
    rw [show answer = _ from hok, hT]
    have hin : ∀ p, (chapter.note (some T) (.enroll w.txid w.identity ps)
        (.ok .enrolled)).enrolledIn p = if p ∈ ps then some T else chapter.enrolledIn p :=
      fun p => Chapter.enrolledIn_note
    constructor
    case own =>
      intro e he
      rcases List.mem_append.mp he with he | he
      · exact h.own_act ha.kept _ e he
      · rw [List.mem_singleton.mp he]
        exact ⟨T, rfl, hx, hid, Or.inl ho⟩
    case writs =>
      intro x hxw
      obtain ⟨htxn, hne, hr⟩ := h.writs x hxw
      refine ⟨?_, hne, hr⟩
      rw [hin, if_neg (old _ (hr (by simp [hp])))]
      exact htxn
    case assigned =>
      intro p hr
      obtain ⟨T', hT', huniq⟩ := kept p (h.assigned p hr) (old p hr)
      refine ⟨T', ?_, huniq⟩
      rw [hin, if_neg (old p hr)]
      exact hT'
    case fresh =>
      intro f b k hp' _ p hpf
      rw [hp] at hp'
      obtain ⟨rfl, -, -⟩ := Phase.enrolling.inj hp'
      refine ⟨T, ?_, fun U ho' _ hx' _ => (ho.unique ho' (hx.trans hx'.symm)).symm⟩
      rw [hin, if_pos hpf]
    case tracked =>
      intro T' hT'
      rw [Chapter.newest_note] at hT'
      rw [← Option.some.inj hT']
      exact Or.inl ho
  · rw [show answer = _ from he, Chapter.note_error]
    refine ⟨h.own_act ha.kept _, h.writs, fun p hr => kept p (h.assigned p hr) (old p hr), fun f b k _ hl => ?_,
      fun T hT => ?_⟩
    · cases lost <;> cases hl
    · exact Chronicle.tracked_of_describe ha.kept (h.tracked T hT) (Broker.describe_of_refused he)

/-- The worker appends to a partition that it has registered. -/
theorem append (h : Enlisted c chapter w work) (ha : c.Accounted) {p : TopicPartition}
    (hr : w.Registered p) (now : Span) (records : List Record) (lost : Option BrokerError) :
    let c' := c.act (.request now (.append w.txid w.identity p records))
    let answer := (c.broker.handle now (.append w.txid w.identity p records)).2
    Enlisted c' (chapter.note (c'.ledger.current c'.broker.coordinator w.txid)
      (.append w.txid w.identity p records) answer) w (Scene.reply answer lost) := by
  intro c' answer
  have hfits := fits_append (fits_handle c.broker now (.append w.txid w.identity p records))
  have hact : Enlisted c' chapter w (Scene.reply answer lost) := by
    refine h.act ha (by simp) fun hl => ?_
    rcases hfits with ⟨base, hok⟩ | ⟨e, he⟩
    · rw [show answer = _ from hok] at hl
      cases lost <;> cases hl
    · rw [show answer = _ from he] at hl
      cases lost <;> cases hl
  rcases hfits with ⟨base, hok⟩ | ⟨e, he⟩
  · -- the open transaction with the partition is the one it was enrolled in last
    obtain ⟨T, ho, hen, hx, hid, hcur⟩ := Chronicle.append_ok hok
    obtain ⟨T', hT', huniq⟩ := h.assigned p hr
    obtain rfl := huniq T ho hen hx hid
    rw [show answer = _ from hok, hcur] at *
    refine ⟨hact.own, fun x hxw => ?_, hact.assigned, hact.fresh, hact.tracked⟩
    rcases List.mem_append.mp hxw with hxw | hxw
    · exact h.writs x hxw
    · obtain ⟨rfl, htxn⟩ := mem_written hxw
      exact ⟨htxn.trans hT'.symm, by simp [htxn], fun _ => hr⟩
  · rw [show answer = _ from he, Chapter.note_error] at *
    exact hact

/-- Neither an enrollment nor a record is added, and the worker registers what
it had registered, or has heard of. -/
theorem transfer (h : Enlisted c chapter w work) {chapter' : Chapter} {w' : Worker} {work' : Line}
    (hen : chapter'.enrollments = chapter.enrollments) (hwr : chapter'.writs = chapter.writs)
    (hx : w'.txid = w.txid) (hid : w'.identity = w.identity)
    (hkeep : w'.phase ≠ .stopped → w.phase ≠ .stopped ∧ ∀ p, w.Registered p → w'.Registered p)
    (hreg : ∀ p, w'.Registered p → w.Registered p ∨ Assigned c chapter w p)
    (hfresh : ∀ f b k, w'.phase = .enrolling f b k → work' = .replied (.ok .enrolled) →
      w.phase = .enrolling f b k ∧ work = .replied (.ok .enrolled)) :
    Enlisted c chapter' w' work' := by
  have hin : ∀ p, chapter'.enrolledIn p = chapter.enrolledIn p := fun p => by
    rw [Chapter.enrolledIn, hen]
    rfl
  have has : ∀ p, Assigned c chapter w p → Assigned c chapter' w' p := fun p ⟨T, hT, huniq⟩ =>
    ⟨T, (hin p).trans hT, fun U ho he hx' hid' => huniq U ho he (hx'.trans hx) (hid'.trans hid)⟩
  constructor
  case own =>
    rw [hen, hx, hid]
    exact h.own
  case writs =>
    rw [hwr]
    intro x hxw
    obtain ⟨htxn, hne, hr⟩ := h.writs x hxw
    refine ⟨htxn.trans (hin _).symm, hne, fun hp => ?_⟩
    obtain ⟨hp', hk⟩ := hkeep hp
    exact hk _ (hr hp')
  case assigned =>
    intro p hr
    exact has p ((hreg p hr).elim (h.assigned p) id)
  case fresh =>
    intro f b k hp hl p hpf
    obtain ⟨hp', hl'⟩ := hfresh f b k hp hl
    exact has p (h.fresh f b k hp' hl' p hpf)
  case tracked =>
    rw [Chapter.newest, hen]
    exact h.tracked

/-- The worker moves on: what it has heard of is registered. -/
theorem move (h : Enlisted c chapter w work) {chapter' : Chapter} {w₀ w' : Worker}
    {barrier : Option Barrier} {loads : List Freight} {acked : List (Ticket × Placement)}
    {err : Option BrokerError} {q : Option Request} (hs : Source w work w₀ barrier loads acked err)
    (hn : w₀.Next barrier loads w' q) (hen : chapter'.enrollments = chapter.enrollments)
    (hwr : chapter'.writs = chapter.writs) :
    Enlisted c chapter' w' (asking q) := by
  have hreg := hs.registered hn
  obtain ⟨hx₀, hid₀, hns⟩ := hs.keeps
  obtain ⟨hx, hid, -⟩ := hn.keeps
  refine h.transfer hen hwr (hx.trans hx₀) (hid.trans hid₀)
    (fun _ => ⟨hns, fun p hr => (hreg p).mpr ⟨hr.2.1, ?_⟩⟩) (fun p hr => ?_) fun f b k _ hl => ?_
  · cases hs with
    | enrolled => exact List.mem_append_left _ hr.2.2
    | _ => exact hr.2.2
  · obtain ⟨hreset, hp⟩ := (hreg p).mp hr
    cases hs with
    | enrolled fresh batches barrier hp' hl =>
      rcases List.mem_append.mp hp with hp | hp
      · exact Or.inl ⟨hns, hreset, hp⟩
      · exact Or.inr (h.fresh _ _ _ hp' hl p hp)
    | _ => exact Or.inl ⟨hns, hreset, hp⟩
  · cases q <;> cases hl

end Enlisted

namespace Scene

/-- What is known of the enrollments and the records of a scene's chapter. -/
structure Enlisted (σ : Scene) : Prop where
  accounted : σ.chronicle.Accounted
  unmanned : σ.session.stance.worker = none →
    σ.chapter.enrollments = [] ∧ σ.chapter.writs = []
  manned : ∀ w, σ.session.stance.worker = some w →
    FencedLog.Enlisted σ.chronicle σ.chapter w σ.work

theorem enlisted_start (broker : BrokerConfig) (config : SessionConfig) :
    (start broker config).Enlisted :=
  ⟨Chronicle.accounted_start broker, fun _ => ⟨rfl, rfl⟩, fun _ hw => nomatch hw⟩

variable {σ τ : Scene} {a : Act}

/-- The session's own requests enroll nothing. -/
theorem Coupled.own_ne_enroll (hc : σ.Coupled) {q : Request} (hq : σ.own = .sent q) (now : Span)
    (x : String) (id : Identity) (now' : Span) (ps : List TopicPartition) :
    Broker.Op.request now q ≠ .request now' (.enroll x id ps) := by
  rcases hc.asked hq with ⟨-, timeout, rfl⟩ | ⟨topic, rfl, -⟩ | ⟨o, back, id', -, -, rfl⟩ <;> simp

/-- The broker answers the worker. -/
theorem Enlisted.reachWork (h : σ.Enlisted) (hc : σ.Coupled) {q : Request} (hq : σ.work = .sent q)
    (now : Span) (lost : Option BrokerError) : (σ.reachWork now lost q).Enlisted := by
  obtain ⟨w, hw, hm, hreq⟩ := hc.ordered hq
  have he := h.manned w hw
  have hx : w.txid = σ.session.config.txid := hm.txid
  refine ⟨Chronicle.accounted_act h.accounted _, fun hn => ?_, fun w' hw' => ?_⟩
  · rw [show (σ.reachWork now lost q).session.stance.worker = _ from hw] at hn
    cases hn
  obtain rfl : w = w' := Option.some.inj (hw.symm.trans hw')
  rcases hreq with ⟨fresh, batches, barrier, hp, rfl⟩ | ⟨batch, rest, barrier, hp, rfl⟩
  · have henroll := he.enroll h.accounted hp (hm.sound.fresh _ _ _ hp).1 now lost
    rw [hx] at *
    exact henroll
  · have hr : w.Registered batch.partition := ⟨by simp [hp],
      hm.shape.not_resetting (by simp [hp]) (by simp [hp]),
      hm.sound.known _ _ _ hp batch List.mem_cons_self⟩
    have happend := he.append h.accounted hr now batch.records lost
    rw [hx] at *
    exact happend

/-- The session goes on with a worker that has registered the same. -/
theorem Enlisted.alike (h : σ.Enlisted) (hc : σ.Coupled) (hτ : τ.Coupled)
    (hchr : τ.chronicle = σ.chronicle) (hwork : τ.work = σ.work)
    (hen : τ.chapter.enrollments = σ.chapter.enrollments)
    (hwr : τ.chapter.writs = σ.chapter.writs)
    (hid : τ.session.stance.identity = σ.session.stance.identity)
    (hwk : ∀ w', τ.session.stance.worker = some w' → ∃ w, σ.session.stance.worker = some w ∧
      w'.txid = w.txid ∧ w'.identity = w.identity ∧ w'.phase = w.phase ∧
      ∀ p, w'.Registered p ↔ w.Registered p) : τ.Enlisted := by
  refine ⟨hchr ▸ h.accounted, fun hn => ?_, fun w' hw' => ?_⟩
  · rw [hen, hwr]
    exact h.unmanned (hc.unmanned_of hτ hid hn)
  · obtain ⟨w, hw, hx, hid', hp, hr⟩ := hwk w' hw'
    rw [hchr, hwork]
    exact (h.manned w hw).transfer hen hwr hx hid' (fun hs => ⟨hp ▸ hs, fun p => (hr p).mpr⟩)
      (fun p hr' => Or.inl ((hr p).mp hr')) fun f b k hp' hl => ⟨hp ▸ hp', hl⟩

/-- An event of the session. -/
theorem Enlisted.turn (h : σ.Enlisted) (hc : σ.Coupled) (hτ : τ.Coupled) {e : Event}
    (ht : σ.Turned e τ.session τ) : τ.Enlisted := by
  have hacc : τ.chronicle.Accounted := ht.chronicle ▸ h.accounted
  have same : τ.session.stance.worker = σ.session.stance.worker →
      ∀ w', τ.session.stance.worker = some w' → ∃ w, σ.session.stance.worker = some w ∧
        w'.txid = w.txid ∧ w'.identity = w.identity ∧ w'.phase = w.phase ∧
        ∀ p, w'.Registered p ↔ w.Registered p :=
    fun hwk w' hw' => ⟨w', hwk ▸ hw', rfl, rfl, rfl, fun _ => Iff.rfl⟩
  have alike := h.alike hc hτ ht.chronicle ht.work
  have hstride := ht.stride
  generalize hv : τ.session.stance = v' at hstride
  cases hstride with
  | quiet hk hchap =>
    refine alike (by rw [hchap]) (by rw [hchap]) (hv ▸ hk.identity) fun w' hw' => ?_
    obtain ⟨w, hw, hal⟩ := hk.worker w' (hv ▸ hw')
    refine ⟨w, hw, ?_, ?_, ?_, fun p => hal.registered p⟩ <;>
      obtain ⟨tail, flushed, -, rfl⟩ := hal <;> rfl
  | sent s p hp hchap he hl hv' =>
    rcases hv' with rfl | ⟨w, hw, hph, rfl⟩
    · exact alike (by rw [hchap]) (by rw [hchap]) (by rw [hv]) (same (by rw [hv]))
    · refine alike (by rw [hchap]) (by rw [hchap]) (by rw [hv]) fun w' hw' => ?_
      rw [hv] at hw'
      obtain rfl := Option.some.inj hw'
      exact ⟨w, hw, rfl, rfl, rfl, fun p => registered_queue_send w _ p⟩
  | begun w started hw hl hph hchap he hv' =>
    subst hv'
    refine ⟨hacc, fun hn => absurd hn (by simp [hv]), fun w' hw' => ?_⟩
    rw [hv] at hw'
    obtain rfl := Option.some.inj hw'
    have hrest := ((hc.manned w hw).shape.resting (by simp [hl]) (by simp [hl])).1
    rw [hchap]
    refine ⟨by simp [Chapter.empty], by simp [Chapter.empty],
      fun p hr => absurd hr (not_registered_queue_begin w p), fun f b k hp => ?_,
      by simp [Chapter.empty, Chapter.newest]⟩
    replace hp : w.phase = .enrolling f b k := hp
    simp [hp] at hrest
  | acquired id inherited hl hi hchap he hv' =>
    subst hv'
    refine ⟨hacc, fun hn => absurd hn (by simp [hv]), fun w' hw' => ?_⟩
    rw [hv] at hw'
    obtain rfl := Option.some.inj hw'
    obtain ⟨hen, hwr⟩ := h.unmanned (hc.fresh hl)
    refine ⟨by simp [hchap, hen], by simp [hchap, hwr], fun p hr => ?_, fun f b k hp => ?_,
      by simp [hchap, Chapter.newest, hen]⟩
    · exact absurd hr.2.2 List.not_mem_nil
    · cases hp
  | finishing o back hchap he hl hr hv' =>
    subst hv'
    exact alike (by rw [hchap]) (by rw [hchap]) (by rw [hv]) (same (by rw [hv]))
  | concluded o hchap he h' hv' =>
    subst hv'
    exact alike (by rw [hchap]) (by rw [hchap]) (by rw [hv]) (same (by rw [hv]))
  | refused o back err fatal hchap he hw ha hfat hv' =>
    subst hv'
    exact alike (by rw [hchap]) (by rw [hchap]) (by rw [hv]) (same (by rw [hv]))

/-- **Every step keeps records where their partitions are enrolled.** -/
theorem Enlisted.step (h : σ.Enlisted) (hc : σ.Coupled) (hτ : τ.Coupled) (hs : σ.Step a τ)
    (hf : σ.Fair a) : τ.Enlisted := by
  cases hs with
  | same => exact h
  | others op =>
    refine ⟨Chronicle.accounted_act h.accounted op, h.unmanned, fun w hw => ?_⟩
    have hm := hc.manned w hw
    refine (h.manned w hw).act h.accounted (fun now ps he => hf ⟨w.identity, Or.inl hm.identity,
      Or.inl ⟨now, ps, ?_⟩⟩) id
    rw [he, hm.txid]
    rfl
  | reachOwn now lost q hq =>
    refine ⟨Chronicle.accounted_act h.accounted _, h.unmanned, fun w hw => ?_⟩
    exact (h.manned w hw).act h.accounted (fun now' ps => hc.own_ne_enroll hq now _ _ now' ps) id
  | reachWork now lost q hq => exact h.reachWork hc hq now lost
  | refuseOwn e q hq => exact ⟨h.accounted, h.unmanned, h.manned⟩
  | refuseWork e q hq =>
    refine ⟨h.accounted, h.unmanned, fun w hw => ?_⟩
    exact (h.manned w hw).transfer rfl rfl rfl rfl (fun hp => ⟨hp, fun _ hr => hr⟩)
      (fun _ hr => Or.inl hr) fun _ _ _ _ hl => by cases hl
  | turn a e τ hcall hanswer ht => exact h.turn hc hτ ht
  | moved a w w₀ w' barrier loads acked err q fatal started s' hw hsrc hn hfatal hst hen hv =>
    refine ⟨h.accounted, fun hn => absurd hn (by simp [hv]), fun w'' hw'' => ?_⟩
    rw [hv] at hw''
    obtain rfl := Option.some.inj hw''
    exact (h.manned w hw).move hsrc hn rfl rfl
  | stopped a w s' wait call' hw hwait hcall hv =>
    refine ⟨h.accounted, fun hn => absurd hn (by simp [hv]), fun w'' hw'' => ?_⟩
    rw [hv] at hw''
    obtain rfl := Option.some.inj hw''
    exact (h.manned w hw).transfer rfl rfl rfl rfl (fun hp => absurd rfl hp)
      (fun p hr => absurd rfl hr.1) fun f b k hp => nomatch hp

/-! ### What the worker achieves -/

/-- The worker's partitions are enrolled, in a transaction of its identity. -/
theorem Enlisted.reachWork_enrolled (he : σ.Enlisted) {w : Worker}
    (hx : w.txid = σ.session.config.txid) {fresh : List TopicPartition} {now : Span}
    (ha : (σ.chronicle.broker.handle now (.enroll w.txid w.identity fresh)).2 = .ok .enrolled) :
    ∃ T, T.txid = w.txid ∧ T.identity = w.identity ∧
      (σ.chronicle.act (.request now (.enroll w.txid w.identity fresh))).Open T ∧
      σ.reachWork now none (.enroll w.txid w.identity fresh) = { σ with
        chronicle := σ.chronicle.act (.request now (.enroll w.txid w.identity fresh))
        work := .replied (.ok .enrolled)
        chapter := { σ.chapter with
          enrollments := σ.chapter.enrollments ++ [(fresh, some T)] } } := by
  obtain ⟨T, hT, hTx, hTid, ho⟩ := Chronicle.enroll_ok he.accounted.coordinator ha
  refine ⟨T, hTx, hTid, ho, ?_⟩
  rw [hx] at hT ha ⊢
  simp only [Scene.reachWork, current, ha, hT, Chapter.note, reply]

/-- The worker's records are appended, in the open transaction of its
identity. -/
theorem reachWork_appended {w : Worker} (hx : w.txid = σ.session.config.txid)
    {p : TopicPartition} {records : List Record} {now : Span} {base : Nat}
    (ha : (σ.chronicle.broker.handle now (.append w.txid w.identity p records)).2 =
      .ok (.appended base)) :
    ∃ T, T.txid = w.txid ∧ T.identity = w.identity ∧ σ.chronicle.Open T ∧
      σ.reachWork now none (.append w.txid w.identity p records) = { σ with
        chronicle := σ.chronicle.act (.request now (.append w.txid w.identity p records))
        work := .replied (.ok (.appended base))
        chapter := { σ.chapter with
          writs := σ.chapter.writs ++ written p (some T) base records } } := by
  obtain ⟨T, ho, -, hTx, hTid, hT⟩ := Chronicle.append_ok ha
  refine ⟨T, hTx, hTid, ho, ?_⟩
  rw [hx] at hT ha ⊢
  simp only [Scene.reachWork, current, ha, hT, Chapter.note, reply]

/-- A refusal is all that comes of a refused request. -/
theorem reachWork_refused {q : Request} {now : Span} {e : BrokerError}
    (ha : (σ.chronicle.broker.handle now q).2 = .error e) : σ.reachWork now none q = { σ with
      chronicle := σ.chronicle.act (.request now q), work := .replied (.error e) } := by
  simp only [Scene.reachWork, ha, Chapter.note_error, reply]

end Scene
end FencedLog
