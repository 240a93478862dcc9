/-
# A transaction to the record

When a session has its identity for itself, its transaction comes out even.
The entries of the coordinator's transaction are the records that the worker
has appended, each once (`Recorded`). As every answer is heard, these are the
records that have been acknowledged or are about to be, unless the worker has
died over one (`Even`), and then no end of the transaction succeeds. So when
a call to commit or to abort succeeds the acknowledged records are the entries
of the transaction, and all of them are committed, or aborted (`balanced`).

Key definitions: `Scene.Recorded`, `Scene.Even`, `Scene.Balanced`.
Key theorems: `Scene.Recorded.step`, `Scene.Even.step`, `Scene.balanced`.
-/
import FencedLog.Proofs.Broker.Entries
import FencedLog.Proofs.Scene.Alone
import FencedLog.Proofs.Scene.Handoff

namespace FencedLog

open Stance

/-! ### What an append writes -/

/-- The records of an append, at consecutive offsets. -/
theorem mem_written_iff {p : TopicPartition} {txn : Option Txn} {x : Writ} :
    ∀ {records : List Record} {base : Nat}, x ∈ written p txn base records ↔
      ∃ j r, records[j]? = some r ∧ x = ⟨p, base + j, r, txn⟩
  | [], base => by simp [written]
  | r :: rs, base => by
    rw [written, List.mem_cons, mem_written_iff]
    constructor
    · rintro (rfl | ⟨j, r', hj, rfl⟩)
      · exact ⟨0, r, rfl, rfl⟩
      · exact ⟨j + 1, r', hj, by rw [show base + 1 + j = base + (j + 1) by omega]⟩
    · rintro ⟨j, r', hj, rfl⟩
      cases j with
      | zero => exact Or.inl (by rw [← Option.some.inj hj]; rfl)
      | succ j => exact Or.inr ⟨j, r', hj, by rw [show base + 1 + j = base + (j + 1) by omega]⟩

theorem length_written (p : TopicPartition) (txn : Option Txn) :
    ∀ (records : List Record) (base : Nat), (written p txn base records).length = records.length
  | [], _ => rfl
  | _ :: rs, base => congrArg (· + 1) (length_written p txn rs (base + 1))

theorem length_receipts (p : TopicPartition) :
    ∀ (loads : List Load) (base : Nat), (receipts p base loads).length = loads.length
  | [], _ => rfl
  | _ :: loads, base => congrArg (· + 1) (length_receipts p loads (base + 1))

/-- Where a record is, apart from what it is. -/
def Writ.spot (x : Writ) : TopicPartition × Nat := (x.partition, x.offset)

/-- An append takes each offset once. -/
theorem nodup_written (p : TopicPartition) (txn : Option Txn) :
    ∀ (records : List Record) (base : Nat), ((written p txn base records).map Writ.spot).Nodup
  | [], _ => List.nodup_nil
  | r :: rs, base => by
    refine List.nodup_cons.mpr ⟨fun h => ?_, nodup_written p txn rs (base + 1)⟩
    obtain ⟨x, hx, he⟩ := List.mem_map.mp h
    obtain ⟨j, r', -, rfl⟩ := mem_written_iff.mp hx
    have hoff : base + 1 + j = base := congrArg Prod.snd he
    omega

namespace Scene

variable {σ τ : Scene} {a : Act}

/-! ### The entries of the transaction -/

/-- The entries of the transaction in which the session enrolls are the records
that its worker has appended, each once. -/
structure Recorded (σ : Scene) : Prop where
  present : ∀ x ∈ σ.chapter.writs,
    ∃ T, σ.chapter.newest = some T ∧ σ.chronicle.Has T x.place
  complete : ∀ T, σ.chapter.newest = some T → ∀ y, σ.chronicle.Has T y →
    y ∈ σ.chapter.writs.map Writ.place
  nodup : (σ.chapter.writs.map Writ.spot).Nodup

theorem recorded_start (broker : BrokerConfig) (config : SessionConfig) :
    (start broker config).Recorded :=
  ⟨fun _ hx => (nomatch hx), fun _ hT => (nomatch hT), List.nodup_nil⟩

/-- Neither the broker nor the records of the chapter have changed. -/
theorem Recorded.keep (h : σ.Recorded) (hchr : τ.chronicle = σ.chronicle)
    (hen : τ.chapter.enrollments = σ.chapter.enrollments)
    (hwr : τ.chapter.writs = σ.chapter.writs) : τ.Recorded := by
  have hnew : τ.chapter.newest = σ.chapter.newest := by rw [Chapter.newest, hen, Chapter.newest]
  refine ⟨?_, ?_, ?_⟩
  · rw [hwr, hnew, hchr]
    exact h.present
  · rw [hwr, hnew, hchr]
    exact h.complete
  · rw [hwr]
    exact h.nodup

/-- Something is done that adds no entry to the transaction. -/
theorem Recorded.act (h : σ.Recorded) (he : σ.Enlisted) (op : Broker.Op)
    (hd : ∀ topic, op ≠ .deleteTopic topic)
    (hop : ∀ T y, σ.chapter.newest = some T → (σ.chronicle.act op).Has T y → σ.chronicle.Has T y) :
    Recorded { σ with chronicle := σ.chronicle.act op } where
  present := fun x hx => by
    obtain ⟨T, hT, hhas⟩ := h.present x hx
    exact ⟨T, hT, Chronicle.has_act he.accounted hhas (hd _)⟩
  complete := fun T hT y hy => h.complete T hT y (hop T y hT hy)
  nodup := h.nodup

/-- The worker appends. -/
theorem Recorded.append (h : σ.Recorded) (ha : σ.Alone) (he : σ.Enlisted) (hc : σ.Coupled)
    {w : Worker} (hw : σ.session.stance.worker = some w) {p : TopicPartition}
    {records : List Record} {now : Span} {base : Nat}
    (hok : (σ.chronicle.broker.handle now (.append w.txid w.identity p records)).2 =
      .ok (.appended base)) :
    (σ.reachWork now none (.append w.txid w.identity p records)).Recorded := by
  have hm := hc.manned w hw
  have hx : w.txid = σ.session.config.txid := hm.txid
  obtain ⟨T, hTx, hTid, ho, hscene⟩ := reachWork_appended hx hok
  have hnew : σ.chapter.newest = some T :=
    (ha.sole w.identity (Or.inl hm.identity) T ho (hTx.trans hx) hTid).1
  rw [hscene]
  rw [← hTx, ← hTid] at hok ⊢
  obtain ⟨hhas, hlt⟩ := Chronicle.has_append he.accounted ho hok
  refine ⟨fun x hx => ⟨T, hnew, ?_⟩, fun U hU y hy => ?_, ?_⟩
  · rcases List.mem_append.mp hx with hx | hx
    · obtain ⟨U, hU, hhas'⟩ := h.present x hx
      obtain rfl := Option.some.inj (hnew.symm.trans hU)
      exact Chronicle.has_act he.accounted hhas' (by simp)
    · obtain ⟨j, r, hj, rfl⟩ := mem_written_iff.mp hx
      exact hhas j r hj
  · obtain rfl : T = U := Option.some.inj (hnew.symm.trans hU)
    rw [List.map_append]
    rcases Chronicle.has_of_act he.accounted hy with hy | ⟨now', rs, base', j, hop, hok', hoff, hj⟩
    · exact List.mem_append_left _ (h.complete T hnew y hy)
    · -- a new entry is one of the records of this append
      obtain ⟨q, offset, r⟩ := y
      obtain ⟨rfl, hreq⟩ := Broker.Op.request.inj hop
      obtain ⟨-, -, rfl, rfl⟩ := Request.append.inj hreq
      obtain rfl := Reply.appended.inj (Except.ok.inj (hok.symm.trans hok'))
      obtain rfl : offset = base + j := hoff
      exact List.mem_append_right _ (List.mem_map.mpr ⟨_, mem_written_iff.mpr ⟨j, r, hj, rfl⟩, rfl⟩)
  · rw [List.map_append, List.nodup_append]
    refine ⟨h.nodup, nodup_written p (some T) records base, fun a hold b hb hab => ?_⟩
    subst hab
    obtain ⟨x, hx, rfl⟩ := List.mem_map.mp hold
    obtain ⟨y, hy, hxy⟩ := List.mem_map.mp hb
    obtain ⟨j, r, -, rfl⟩ := mem_written_iff.mp hy
    obtain ⟨hp, hoff⟩ := Prod.mk.inj hxy
    obtain ⟨U, -, hhas'⟩ := h.present x hx
    have hbefore : x.offset < base := hlt U x.offset x.record (by
      rw [show p = x.partition from hp]
      exact hhas')
    have : base + j = x.offset := hoff
    omega

/-- The worker enrolls partitions: the entries are of the transaction that has
been open. -/
theorem Recorded.enroll (h : σ.Recorded) (ha : σ.Alone) (he : σ.Enlisted) (hc : σ.Coupled)
    {w : Worker} (hw : σ.session.stance.worker = some w) {fresh : List TopicPartition} {now : Span}
    (hone : ∀ e ∈ (σ.reachWork now none (.enroll w.txid w.identity fresh)).chapter.enrollments,
      e.2 = (σ.reachWork now none (.enroll w.txid w.identity fresh)).chapter.newest)
    (hok : (σ.chronicle.broker.handle now (.enroll w.txid w.identity fresh)).2 = .ok .enrolled) :
    (σ.reachWork now none (.enroll w.txid w.identity fresh)).Recorded := by
  have hm := hc.manned w hw
  have hx : w.txid = σ.session.config.txid := hm.txid
  obtain ⟨T, hTx, hTid, ho, hscene⟩ := he.reachWork_enrolled hx hok
  have hnew : ({ σ.chapter with enrollments := σ.chapter.enrollments ++ [(fresh, some T)] } :
      Chapter).newest = some T := by simp [Chapter.newest]
  rw [hscene] at hone ⊢
  refine ⟨fun x hmem => ⟨T, hnew, ?_⟩, fun U hU y hy => ?_, h.nodup⟩
  · obtain ⟨T₀, hT₀, hhas⟩ := h.present x hmem
    obtain ⟨e, hemem, he₀⟩ := Chapter.newest_mem hT₀
    have hsame : some T₀ = some T := by
      rw [← he₀, ← hnew]
      exact hone e (List.mem_append_left _ hemem)
    rw [← Option.some.inj hsame]
    exact Chronicle.has_act he.accounted hhas (by simp)
  · obtain rfl : T = U := Option.some.inj (hnew.symm.trans hU)
    rcases Chronicle.has_of_act he.accounted hy with hhas | ⟨_, _, _, _, hop, -⟩
    · -- a transaction with an entry that is open now has been open before
      rcases hhas.begun he.accounted with hb | ⟨o, hb⟩
      · exact h.complete T (ha.sole w.identity (Or.inl hm.identity) T hb (hTx.trans hx) hTid).1 y hhas
      · have hend := Chronicle.ended_stable he.accounted.kept hb
          (.request now (.enroll w.txid w.identity fresh))
        exact absurd ho ((Chronicle.accounted_act he.accounted _).kept T o hend).2
    · cases Broker.Op.request.inj hop |>.2

/-- The broker answers the worker. -/
theorem Recorded.reachWork (h : σ.Recorded) (ha : σ.Alone) (he : σ.Enlisted) (hc : σ.Coupled)
    {q : Request} (hq : σ.work = .sent q) {now : Span}
    (hone : ∀ e ∈ (σ.reachWork now none q).chapter.enrollments,
      e.2 = (σ.reachWork now none q).chapter.newest) : (σ.reachWork now none q).Recorded := by
  obtain ⟨w, hw, hm, hreq⟩ := hc.ordered hq
  -- nothing comes of a request that is refused
  have still : ∀ e, (σ.chronicle.broker.handle now q).2 = .error e →
      (σ.reachWork now none q).Recorded := fun e hno => by
    rw [reachWork_refused hno]
    refine (h.act he (.request now q) (by simp) fun T y hT hy => ?_).keep rfl rfl rfl
    rcases Chronicle.has_of_act he.accounted hy with hhas | ⟨_, _, _, _, hop, hok, -⟩
    · exact hhas
    · obtain ⟨rfl, rfl⟩ := Broker.Op.request.inj hop
      rw [hno] at hok
      cases hok
  rcases hreq with ⟨fresh, batches, barrier, hp, rfl⟩ | ⟨batch, rest, barrier, hp, rfl⟩
  · rcases fits_enroll (fits_handle σ.chronicle.broker now (.enroll w.txid w.identity fresh)) with
      hok | ⟨e, hno⟩
    · exact h.enroll ha he hc hw hone hok
    · exact still e hno
  · rcases fits_append (fits_handle σ.chronicle.broker now
      (.append w.txid w.identity batch.partition batch.records)) with ⟨base, hok⟩ | ⟨e, hno⟩
    · exact h.append ha he hc hw hok
    · exact still e hno

/-- An event of the session. -/
theorem Recorded.turn (h : σ.Recorded) {e : Event} (ht : σ.Turned e τ.session τ) : τ.Recorded := by
  have hchr := ht.chronicle
  have hstride := ht.stride
  generalize τ.session.stance = v' at hstride
  cases hstride with
  | quiet _ hchap => exact h.keep hchr (by rw [hchap]) (by rw [hchap])
  | sent s p _ hchap => exact h.keep hchr (by rw [hchap]) (by rw [hchap])
  | begun w started _ _ _ hchap =>
    refine ⟨fun x hx => ?_, fun T hT => ?_, ?_⟩
    · rw [hchap] at hx
      cases hx
    · rw [hchap] at hT
      cases hT
    · rw [hchap]
      exact List.nodup_nil
  | acquired id inherited _ _ hchap => exact h.keep hchr (by rw [hchap]) (by rw [hchap])
  | finishing o back hchap => exact h.keep hchr (by rw [hchap]) (by rw [hchap])
  | concluded o hchap => exact h.keep hchr (by rw [hchap]) (by rw [hchap])
  | refused o back err fatal hchap => exact h.keep hchr (by rw [hchap]) (by rw [hchap])

/-- **Every step of a session that is not closed keeps the entries of its
transaction the records that it has appended.** -/
theorem Recorded.step (h : σ.Recorded) (ha : σ.Alone) (he : σ.Enlisted) (hc : σ.Coupled)
    (hone : ∀ e ∈ τ.chapter.enrollments, e.2 = τ.chapter.newest) (hs : σ.Step a τ)
    (hx : σ.Exclusive a) : τ.Recorded := by
  cases hs with
  | same => exact h
  | others op =>
    refine h.act he op hx.1 fun T y hT hy => ?_
    obtain ⟨htxid, hid⟩ := he.newest_held hc hT
    rcases Chronicle.has_of_act he.accounted hy with hhas | ⟨now, rs, -, -, hop, -⟩
    · exact hhas
    · exact absurd ⟨htxid, rfl⟩ (hx.2 T.identity (Or.inl hid) now _ hop)
  | reachOwn now lost q hq =>
    obtain rfl : lost = none := hx
    refine (h.act he (.request now q) (by simp) fun T y hT hy => ?_).keep rfl rfl rfl
    -- the session's own requests append nothing
    rcases Chronicle.has_of_act he.accounted hy with hhas | ⟨_, _, _, _, hop, -⟩
    · exact hhas
    · rcases hc.asked hq with ⟨-, timeout, rfl⟩ | ⟨topic, rfl, -⟩ | ⟨o, back, id, -, -, rfl⟩ <;>
        cases (Broker.Op.request.inj hop).2
  | reachWork now lost q hq =>
    obtain rfl : lost = none := hx
    exact h.reachWork ha he hc hq hone
  | refuseOwn e q hq => exact h.keep rfl rfl rfl
  | refuseWork e q hq => exact h.keep rfl rfl rfl
  | turn a e τ hcall hanswer ht => exact h.turn ht
  | moved => exact h.keep rfl rfl rfl
  | stopped => exact h.keep rfl rfl rfl

/-! ### Acknowledgments -/

/-- The worker has died over what it had to append, and the session, which is
in a transaction, has not heard of it. -/
def Broken (v : Stance) : Prop :=
  v.lifecycle = .inTransaction ∧ ∃ w, v.worker = some w ∧ w.phase = .stopped ∧
    ∀ next, v.wait = .flush next → w.flushed = false

/-- What has been appended is acknowledged, or is about to be, unless the worker
has died. -/
def Even (σ : Scene) : Prop :=
  σ.chapter.writs.length = σ.chapter.acks.length + σ.landed.length ∨ Broken σ.session.stance

theorem even_start (broker : BrokerConfig) (config : SessionConfig) : (start broker config).Even :=
  Or.inl rfl

/-- A session whose worker has died stays in its transaction, or is closed. -/
theorem Broken.turn (h : Broken σ.session.stance) (hc : σ.Coupled) (hτ : τ.Coupled)
    (hcl : τ.session.stance.lifecycle ≠ .closed) {e : Event} (ht : σ.Turned e τ.session τ) :
    Broken τ.session.stance := by
  obtain ⟨hl, w, hw, hp, hflush⟩ := h
  have unreached : ∀ o, ¬ σ.session.stance.Reached o := by
    rintro o ⟨hwait, w', hw', hf⟩
    obtain rfl := Option.some.inj (hw.symm.trans hw')
    rw [hflush _ hwait] at hf
    cases hf
  have unasked := hc.not_finish (fun o => by rw [hl]; cases o <;> simp [Outcome.ending])
  have hstride := ht.stride
  generalize hv : τ.session.stance = v' at hstride hcl
  cases hstride with
  | quiet hk _ _ _ _ hr hlc =>
    have hlc' : v'.lifecycle = .inTransaction := by
      rcases hlc with ⟨hlc, -⟩ | ⟨-, hlc⟩ | hlc
      · exact hlc.trans hl
      · rw [hl] at hlc
        cases hlc
      · exact absurd hlc hcl
    cases hw' : v'.worker with
    | none =>
      rw [hc.unmanned_of hτ (hv ▸ hk.identity) (hv ▸ hw')] at hw
      cases hw
    | some w' =>
      obtain ⟨w₀, hw₀, hal⟩ := hk.worker w' hw'
      obtain rfl := Option.some.inj (hw.symm.trans hw₀)
      refine ⟨hlc', w', hw', ?_, fun next hwait => ?_⟩
      · obtain ⟨tail, flushed, -, rfl⟩ := hal
        exact hp
      · by_contra hf
        obtain ⟨hwait', hw''⟩ := hr next w' hwait hw' (by simpa using hf)
        obtain rfl := Option.some.inj (hw.symm.trans hw'')
        exact hf (hflush next hwait')
  | sent s p _ _ _ _ hv' =>
    rcases hv' with rfl | ⟨w', hw', hp', -⟩
    · refine ⟨hl, w, hw, hp, ?_⟩
      intro next hwait
      cases hwait
    · obtain rfl := Option.some.inj (hw.symm.trans hw')
      exact absurd hp hp'
  | begun w' started _ hlc =>
    rw [hl] at hlc
    cases hlc
  | acquired id inherited hlc =>
    rw [hl] at hlc
    cases hlc
  | finishing o back _ _ hlc hr => exact absurd (hr (hlc.symm.trans hl)) (unreached o)
  | concluded o _ _ h' =>
    rcases h' with ⟨back, hwait, -⟩ | ⟨hr, -⟩
    · exact absurd hwait (unasked o back)
    · exact absurd hr (unreached o)
  | refused o back err fatal _ _ hwait => exact absurd hwait (unasked o back)

/-- Nothing has landed unless an append has been answered. -/
theorem landed_nil (h : ∀ base, σ.work ≠ .replied (.ok (.appended base))) : σ.landed = [] := by
  rw [landed]
  cases σ.session.stance.worker with
  | none => rfl
  | some w =>
    show w.landed σ.work = []
    unfold Worker.landed
    split
    · rename_i base hl
      exact absurd hl (h base)
    · rfl

/-- A session whose worker goes on is even. -/
theorem Even.of_worker (h : σ.Even) {w : Worker} (hw : σ.session.stance.worker = some w)
    (hp : w.phase ≠ .stopped) :
    σ.chapter.writs.length = σ.chapter.acks.length + (w.landed σ.work).length := by
  rcases h with h | ⟨-, w', hw', hp', -⟩
  · rwa [landed_of_worker hw] at h
  · obtain rfl := Option.some.inj (hw.symm.trans hw')
    exact absurd hp' hp

/-- The broker answers the worker. -/
theorem Even.reachWork (h : σ.Even) (he : σ.Enlisted) (hc : σ.Coupled) {q : Request}
    (hq : σ.work = .sent q) (now : Span) : (σ.reachWork now none q).Even := by
  obtain ⟨w, hw, hm, hreq⟩ := hc.ordered hq
  have hx : w.txid = σ.session.config.txid := hm.txid
  have hbusy : w.phase ≠ .stopped := by
    rcases hreq with ⟨_, _, _, hp, -⟩ | ⟨_, _, _, hp, -⟩ <;> simp [hp]
  have heq : σ.chapter.writs.length = σ.chapter.acks.length := by
    have heq := h.of_worker hw hbusy
    rwa [hq] at heq
  have still : ∀ e, (σ.chronicle.broker.handle now q).2 = .error e →
      (σ.reachWork now none q).Even := fun e hno => by
    left
    rw [reachWork_refused hno, landed_nil (by simp)]
    exact heq
  rcases hreq with ⟨fresh, batches, barrier, hp, rfl⟩ | ⟨batch, rest, barrier, hp, rfl⟩
  · rcases fits_enroll (fits_handle σ.chronicle.broker now (.enroll w.txid w.identity fresh)) with
      hok | ⟨e, hno⟩
    · obtain ⟨T, -, -, -, hscene⟩ := he.reachWork_enrolled hx hok
      left
      rw [hscene, landed_nil (by simp)]
      exact heq
    · exact still e hno
  · rcases fits_append (fits_handle σ.chronicle.broker now
      (.append w.txid w.identity batch.partition batch.records)) with ⟨base, hok⟩ | ⟨e, hno⟩
    · obtain ⟨T, -, -, -, hscene⟩ := reachWork_appended hx hok
      left
      rw [hscene, landed]
      simp only [show σ.session.stance.worker = some w from hw, Worker.landed, hp, List.length_append,
        length_written, length_receipts, heq, Batch.records, List.length_map]
    · exact still e hno

/-- **Every step of a session that is not closed keeps its acknowledgments even
with its records, unless its worker dies.** -/
theorem Even.step (h : σ.Even) (he : σ.Enlisted) (hc : σ.Coupled) (hτ : τ.Coupled)
    (hcl : τ.session.stance.lifecycle ≠ .closed) (hs : σ.Step a τ) (hx : σ.Exclusive a) :
    τ.Even := by
  cases hs with
  | same => exact h
  | others op => exact h
  | reachOwn now lost q hq => exact h
  | reachWork now lost q hq =>
    obtain rfl : lost = none := hx
    exact h.reachWork he hc hq now
  | refuseOwn e q hq => exact h
  | refuseWork e q hq =>
    refine h.imp_left fun heq => ?_
    rw [landed_nil (by simp [hq])] at heq
    rw [landed_nil (by simp)]
    exact heq
  | turn a e τ hcall hanswer ht =>
    rcases carries_turned hc hτ ht with hon | ⟨hchap, hland, -⟩
    · refine h.imp (fun heq => ?_) fun hb => hb.turn hc hτ hcl ht
      rw [hon.writs, hon.acks, hon.landed]
      exact heq
    · left
      rw [hchap, hland]
      rfl
  | moved a w w₀ w' barrier loads acked err q fatal started s' hw hsrc hn hfatal hst hen hv =>
    left
    obtain ⟨hland, -, -, hacks, -⟩ := carries_moved hsrc hn
    have heq := h.of_worker hw hsrc.keeps.2.2
    rw [landed_of_worker (w := w') (by rw [hv]), hland]
    calc σ.chapter.writs.length
        = σ.chapter.acks.length + (w.landed σ.work).length := heq
      _ = σ.chapter.acks.length + acked.length := by rw [← hacks, List.length_map]
      _ = (σ.chapter.acks ++ acked).length := List.length_append.symm
  | stopped a w s' wait call' hw hwait hcall hv =>
    simp only [hv] at hcl
    have hnil : landed { σ with session := s', work := .idle, call := call' } = [] :=
      landed_nil (by simp)
    have hsh := (hc.manned w hw).shape
    by_cases hp : w.phase = .idle ∨ w.phase = .stopped
    · -- nothing was to be heard of
      have hland : σ.landed = [] := by
        rw [landed_of_worker hw]
        refine landed_of_phase (fun batch rest barrier h' => ?_) _
        simp [h'] at hp
      refine h.imp (fun heq => ?_) fun ⟨hl, w₁, hw₁, hp₁, hflush⟩ => ?_
      · rw [hland] at heq
        rw [hnil]
        exact heq
      · obtain rfl := Option.some.inj (hw.symm.trans hw₁)
        simp only [hv]
        refine ⟨hl, _, rfl, rfl, fun next hn => ?_⟩
        rcases hwait with rfl | rfl
        · exact hflush next hn
        · cases hn
    · -- who had something to do was in a transaction, and not done
      right
      simp only [hv]
      refine ⟨?_, _, rfl, rfl, fun next hn => ?_⟩
      · by_contra hl
        exact hp (hsh.resting hl hcl).1
      · rcases hwait with rfl | rfl
        · by_contra hf
          exact hp (hsh.reached next hn (by simpa using hf)).2
        · cases hn

/-! ### The end of a transaction -/

/-- What holds of every scene in which nobody else uses the session's identity. -/
structure Exact (σ : Scene) : Prop where
  faithful : σ.Faithful
  alone : σ.Alone
  recorded : σ.session.stance.lifecycle ≠ .closed → σ.Recorded
  even : σ.session.stance.lifecycle ≠ .closed → σ.Even

theorem exact_start (broker : BrokerConfig) (config : SessionConfig) : (start broker config).Exact where
  faithful := faithful_start broker config
  alone := alone_start broker config
  recorded := fun _ => recorded_start broker config
  even := fun _ => even_start broker config

theorem Exact.act (h : σ.Exact) (ha : σ.Exclusive a) : (σ.act a).Exact := by
  obtain ⟨hf, hal, hr, he⟩ := h
  obtain ⟨hs, hτ⟩ := hf.coupled.act a
  have hal' := hal.step hf.enlisted hf.concluded hf.coupled hτ hs ha
  refine ⟨hf.act ha.fair, hal', fun hcl => ?_, fun hcl => ?_⟩
  · have hopen := hs.not_closed hf.coupled hcl
    exact (hr hopen).step hal hf.enlisted hf.coupled (hal'.one hcl) hs ha
  · have hopen := hs.not_closed hf.coupled hcl
    exact (he hopen).step hf.enlisted hf.coupled hτ hcl hs ha

/-- A transaction has come out even: `done` are the records that have been
acknowledged since it was begun, and the entries that the session has
appended. -/
structure Balanced (σ : Scene) (o : Outcome) (done : List Receipt) : Prop where
  /-- The sends that were completed without an error, each once. -/
  acks : σ.chapter.acks = done.map Receipt.ack
  sends : (done.map Receipt.key).Subperm (σ.chapter.sends.map Sent.key)
  /-- The records that the broker has appended for the session. -/
  writs : σ.chapter.writs.map Writ.place = done.map Receipt.place
  nodup : (done.map fun r => (r.partition, r.offset)).Nodup
  /-- All are in one transaction, under the session's identity. -/
  one : ∀ e ∈ σ.chapter.enrollments, e.2 = σ.chapter.newest
  own : ∀ T, σ.chapter.newest = some T →
    T.txid = σ.session.config.txid ∧ σ.session.identity = some T.identity
  /-- They are the entries of this transaction. -/
  entries : ∀ x, x ∈ done.map Receipt.place ↔ ∃ T, σ.chapter.newest = some T ∧ σ.chronicle.Has T x
  decided : ∀ x ∈ done.map Receipt.place, σ.chronicle.Decided x o

/-- When the end of a transaction succeeds, what was appended is acknowledged. -/
theorem Exact.settled (h : σ.Exact) {o : Outcome} (hend : Ended σ.call o) :
    σ.Recorded ∧ σ.landed = [] ∧ σ.chapter.writs.length = σ.chapter.acks.length := by
  have hready := h.faithful.concluded.ready o hend
  have hcl : σ.session.stance.lifecycle ≠ .closed := by simp [hready]
  have hland : σ.landed = [] := by
    refine landed_nil fun base hl => ?_
    rw [h.faithful.coupled.work_of_resting (by simp [hready]) hcl] at hl
    cases hl
  refine ⟨h.recorded hcl, hland, ?_⟩
  rcases h.even hcl with heq | ⟨hl, -⟩
  · rwa [hland] at heq
  · rw [hready] at hl
    cases hl

/-- **When a call to commit or to abort succeeds, the entries that the session
has appended since it began are the records that have been acknowledged, and
they are decided.** -/
theorem balanced {broker : BrokerConfig} {config : SessionConfig} {σ : Scene}
    (h : Reaches Exclusive (start broker config) σ) {o : Outcome} (hend : Ended σ.call o) :
    ∃ done, σ.Balanced o done := by
  have hx : σ.Exact := h.keeps (exact_start broker config) fun _ _ hρ ha => hρ.act ha
  obtain ⟨hr, hland, hlen⟩ := hx.settled hend
  obtain ⟨done, hdone⟩ := hx.faithful.delivered
  have hacc := hx.faithful.enlisted.accounted
  have hwrits : done.map Receipt.place = σ.chapter.writs.map Writ.place := by
    have hsub := hdone.writs
    rw [hland, List.append_nil] at hsub
    apply hsub.eq_of_length
    calc (done.map Receipt.place).length
        = (done.map Receipt.ack).length := by rw [List.length_map, List.length_map]
      _ = σ.chapter.writs.length := by rw [← hdone.acks, hlen]
      _ = (σ.chapter.writs.map Writ.place).length := by rw [List.length_map]
  have hentries : ∀ x, x ∈ done.map Receipt.place ↔
      ∃ T, σ.chapter.newest = some T ∧ σ.chronicle.Has T x := fun x => by
    rw [hwrits]
    refine ⟨fun hmem => ?_, fun ⟨T, hT, hhas⟩ => hr.complete T hT x hhas⟩
    obtain ⟨y, hy, rfl⟩ := List.mem_map.mp hmem
    exact hr.present y hy
  refine ⟨done, hdone.acks, ?_, hwrits.symm, ?_, hx.alone.one ?_, fun T hT => ?_, hentries,
    fun x hmem => ?_⟩
  · exact ((List.sublist_append_left _ _).subperm).trans hdone.sends
  · have hspots : (done.map fun r => (r.partition, r.offset)) = σ.chapter.writs.map Writ.spot := by
      have hmap := congrArg (List.map fun x : Place => (x.1, x.2.1)) hwrits
      rw [List.map_map, List.map_map] at hmap
      exact hmap
    rw [hspots]
    exact hr.nodup
  · simp [hx.faithful.concluded.ready o hend]
  · exact hx.faithful.enlisted.newest_held hx.faithful.coupled hT
  · obtain ⟨T, hT, hhas⟩ := (hentries x).mp hmem
    apply hhas.decided hacc
    cases o with
    | commit => exact hx.faithful.concluded.committed hend T hT
    | abort => exact hx.alone.aborted hend T hT

/-- A session sends two records after another instance has been there, one of
them does not get through, and it ends the transaction. -/
def oneRefused (o : Outcome) : List Act := [
  .others (.createTopic "T" 2), .others (.request .zero (.init "tx" .zero)),
  .call .init, .reach .own .zero none, .hear .own,
  .call .begin, .round 1,
  .call (.send (draftFor 0) ⟨0, .future⟩ 0), .reach .own .zero none, .hear .own,
  .call (.send (draftFor 1) ⟨1, .future⟩ 0),
  .round 2, .reach .work .zero none, .hear .work, .reach .work .zero none, .hear .work,
  .refuse .work .connectionClosed, .hear .work,
  .call (.finish o), .round 1, .wake, .reach .own .zero none, .hear .own]

theorem admits_oneRefused (o : Outcome) :
    (start .default settings).Admits Exclusive (oneRefused o) := by
  simp [oneRefused, Admits, Exclusive, Broker.Under, BrokerError.isRetriable]

theorem balanced_oneRefused :
    (Ended ((start .default settings).run (oneRefused .commit)).call .commit ∧
      ∃ done, ((start .default settings).run (oneRefused .commit)).Balanced .commit done) ∧
    Ended ((start .default settings).run (oneRefused .abort)).call .abort ∧
      ∃ done, ((start .default settings).run (oneRefused .abort)).Balanced .abort done :=
  ⟨⟨⟨_, rfl⟩, balanced (Reaches.refl.run (admits_oneRefused .commit)) ⟨_, rfl⟩⟩,
    ⟨_, rfl⟩, balanced (Reaches.refl.run (admits_oneRefused .abort)) ⟨_, rfl⟩⟩

end Scene
end FencedLog
