/-
# Records in one round

Which records share a batch and a round is a matter of timing. A session has
sent them all, and as long as it knows of no terminal error, what becomes of one
of them is up to its batch and its round. However the session, its worker and
the brokers take their turns, it fails as too large only if a record of its batch
is, and for an unknown partition only if its own or one that its round is to
enroll is unknown. If one broker serves a round, a record is acknowledged if
neither happens, its partition is there, and the identity may write to it. So
good neighbors make no difference to it, whoever they are (`Session.neighborly`);
a bad one spoils it (`Session.spoiled_crowded`).

Key definitions: `Session.Answers`, `Session.served`, `Session.Neighborly`,
`Session.crowded`.
Key theorems: `Session.failed_step`, `Session.served_eq`, `Session.neighborly`.
-/
import FencedLog.Proofs.Delivery.Neighbors
import FencedLog.Proofs.Session.Addressed
import FencedLog.Proofs.Session.Doomed

namespace FencedLog

/-- One broker handles the worker's requests, one after the other. -/
def Broker.replies (b : Broker) (d : Delivery) : List Span → List Event
  | [] => []
  | now :: times =>
    match d.worker.request? with
    | none => []
    | some q =>
      .delivered (b.handle now q).2 ::
        (b.handle now q).1.replies (d.answered (b.handle now q).2).1 times

namespace Session

variable {s r : Session} {e : Event} {es : List Event} {d : Delivery} {b : Broker} {t : Ticket}
  {err : DeliveryError} {config : SessionConfig} {connected : Bool}

/-! ### What fails -/

/-- The event answers the request of the session's worker in this way. -/
def Answers (s : Session) (e : Event) (d : Delivery) (v : Service) : Prop :=
  s.worker = some d.worker ∧ s.shared = d.shared ∧
    ∃ q, d.worker.request? = some q ∧ e = .delivered (v.answer q)

/-- The session itself fails only what its worker cannot take. -/
theorem abandoned_turn {v v' : Stance} {effects : List Effect} (ht : v.Turn e v' effects)
    (h : (t, .error err) ∈ completions (deeds effects)) : err = .abandoned := by
  cases ht with
  | abandoned p hs hw =>
    obtain ⟨-, rfl⟩ : t = p.ticket ∧ err = .abandoned := by simpa [deeds, completions] using h
    rfl
  | _ => simp [deeds, completions] at h

/-- **What an event fails** while no terminal error is known. -/
theorem failed_step {book : Daybook} (hk : s.Kept book.call (e :: es)) (hf : s.shared.fatal = none)
    (hh : s.Hearkens e) (h : (t, .error err) ∈ completions (deeds (s.step e).2)) :
    err = .abandoned ∨ err.isTerminal = true ∨
      (∃ w, s.worker = some w ∧ ∃ p ∈ pendings w.queue, p.ticket = t ∧ p.target = .error err) ∨
      ∃ d v, s.Answers e d v ∧ d.Cause t v err := by
  have own : OwnEvent e → err = .abandoned := by
    intro he
    cases hk with
    | held own work hc =>
      rcases turns_step hc he with ⟨hstep, -⟩ | ⟨op, lc, -, ht⟩
      · simp [hstep, deeds, completions] at h
      · exact abandoned_turn ht h
    | left hwait hn =>
      rcases he with ⟨op, rfl⟩ | ⟨answer, rfl⟩ | rfl
      · exact absurd List.mem_cons_self (hn op)
      · simp [Session.step, answered, hwait, deeds, completions] at h
      · simp [Session.step, woken, hwait, deeds, completions] at h
  have killed : (t, .error err) ∉ completions (deeds (s.deliver Delivery.kill).2) := by
    unfold deliver
    split
    · simp [deeds, completions]
    · simp only [deeds_map, Delivery.kill]
      rw [completions_dropped]
      exact List.not_mem_nil
  cases e with
  | called op => exact Or.inl (own (Or.inl ⟨op, rfl⟩))
  | answered answer => exact Or.inl (own (Or.inr (Or.inl ⟨answer, rfl⟩)))
  | woken => exact Or.inl (own (Or.inr (Or.inr rfl)))
  | abandoned => simp [Session.step, deeds, completions] at h
  | outwaited =>
    rw [Session.step, outwaited] at h
    split at h
    · rw [deeds_append, completions_append, List.mem_append] at h
      rcases h with h | h
      · exact absurd h killed
      · simp [finished, deeds, completions] at h
    · simp [deeds, completions] at h
  | died => exact absurd h killed
  | drained =>
    rw [Session.step] at h
    split at h
    · simp [deeds, completions] at h
    · unfold deliver at h
      split at h <;> simp [deeds, completions] at h
  | round visible =>
    simp only [Session.step, deliver] at h
    cases hw : s.worker with
    | none => simp [hw, deeds, completions] at h
    | some w =>
      simp only [hw, deeds_map] at h
      exact Or.inr (Or.inr (Or.inl ⟨w, rfl, Delivery.failed_round hf h⟩))
  | delivered answer =>
    simp only [Session.step, deliver] at h
    cases hw : s.worker with
    | none => simp [hw, deeds, completions] at h
    | some w =>
      simp only [hw, deeds_map] at h
      rcases Daybook.delivered_unfit ⟨w, s.shared⟩ answer with he | ⟨q, hq, -⟩
      · simp [he, completions] at h
      · obtain ⟨v, rfl⟩ := hh w q hw hq
        rcases Delivery.caused_answered hf hq h with hterminal | hcause
        · exact Or.inr (Or.inl hterminal)
        · exact Or.inr (Or.inr (Or.inr ⟨⟨w, s.shared⟩, v, ⟨hw, rfl, q, hq, rfl⟩, hcause⟩))

/-! ### A round of one broker -/

/-- The session's worker can take a round. -/
structure Ready (s : Session) (d : Delivery) : Prop where
  worker : s.worker = some d.worker
  shared : s.shared = d.shared
  idle : d.worker.phase = .idle
  unfailing : d.shared.fatal = none

/-- What the session's worker does that takes a round, and is served by one
broker. -/
def served (s : Session) (b : Broker) (visible : Nat) (times : List Span) : List Deed :=
  match s.worker with
  | none => []
  | some w =>
    deeds (s.run (.round visible :: b.replies (Delivery.round ⟨w, s.shared⟩ visible).1 times)).2

/-- A session that hears these replies does what its worker does that the broker
serves. -/
theorem deeds_replies : ∀ (times : List Span) {s : Session} {b : Broker} {d : Delivery},
    s.worker = some d.worker → s.shared = d.shared →
      deeds (s.run (b.replies d times)).2 = Delivery.alone b d times
  | [], s, b, d, _, _ => rfl
  | now :: times, s, b, d, hw, hs => by
    rw [Broker.replies, Delivery.alone]
    cases hq : d.worker.request? with
    | none => rfl
    | some q =>
      have hrest := deeds_replies times (b := (b.handle now q).1)
        (s := (s.step (.delivered (b.handle now q).2)).1) (d := (d.answered (b.handle now q).2).1)
        (by simp [Session.step, deliver, hw, hs]) (by simp [Session.step, deliver, hw, hs])
      simp only [Session.run, deeds_append, hrest]
      simp [Session.step, deliver, hw, hs, deeds_map]

theorem served_eq (hw : s.worker = some d.worker) (hs : s.shared = d.shared) (visible : Nat)
    (times : List Span) : s.served b visible times = d.roundAlone b visible times := by
  have hround := deeds_replies times (b := b) (s := (s.step (.round visible)).1)
    (d := (d.round visible).1) (by simp [Session.step, deliver, hw, hs])
    (by simp [Session.step, deliver, hw, hs])
  simp only [served, hw, hs, Session.run, deeds_append, hround, Delivery.roundAlone]
  simp [Session.step, deliver, hw, hs, deeds_map]

/-! ### Neighbors -/

/-- What the events of a run and its rounds owe to each record. -/
structure Neighborly (s : Session) (es : List Event) : Prop where
  /-- What the worker has of records was sent. -/
  stocked : ∀ fs gs, es = fs ++ gs → ∀ w, (s.run fs).1.worker = some w → w.Stocked es
  /-- A record is too large only if one of its batch is. -/
  tooLarge : ∀ fs e gs t size max, es = fs ++ e :: gs → (s.run fs).1.shared.fatal = none →
    (t, .error (.recordTooLarge size max)) ∈ completions (deeds ((s.run fs).1.step e).2) →
      ∃ d v, (s.run fs).1.Answers e d v ∧ d.Overfilled t v size max
  /-- Its partition is unknown only if there was none when it was routed, or if
  a broker lacks it or one that the round is to enroll. -/
  unknown : ∀ fs e gs t topic n, es = fs ++ e :: gs → (s.run fs).1.shared.fatal = none →
    (t, .error (.unknownPartition topic n)) ∈ completions (deeds ((s.run fs).1.step e).2) →
      (∃ draft present, .called (.send draft t present) ∈ es ∧ topic = draft.topic ∧
        Strayed es draft) ∨
      ∃ d v, (s.run fs).1.Answers e d v ∧ d.Lacking t v ⟨topic, n⟩
  /-- A broker that serves a round decides which records are acknowledged. -/
  acknowledged : ∀ d, (s.run es).1.Ready d → ∀ config ops visible times p t,
    (d.parcels visible).batches.length < times.length →
      let b := (Broker.start config).run ops
      Acked p t ((s.run es).1.served b visible times) ↔
        Delivery.Carried (d.parcels visible).batches b.config.maxRecordBytes p t ∧
          b.Provides (d.fresh visible) p ∧
            b.Entitles d.worker.txid d.worker.identity d.worker.enrolled p
  /-- Among good neighbors, it fares like a record of the identity among others. -/
  alike : ∀ d, (s.run es).1.Ready d → ∀ r d', Ready r d' →
    d'.worker.txid = d.worker.txid → d'.worker.identity = d.worker.identity →
    ∀ config ops visible visible' times times' p t t',
    (p ∈ d'.worker.enrolled ↔ p ∈ d.worker.enrolled) →
    (d.parcels visible).batches.length < times.length →
    (d'.parcels visible').batches.length < times'.length →
      let b := (Broker.start config).run ops
      Delivery.Unspoiled b d visible p t → Delivery.Unspoiled b d' visible' p t' →
        (Acked p t ((s.run es).1.served b visible times) ↔
          Acked p t' (r.served b visible' times'))

theorem informed_nil : s.Informed [] := fun fs e gs h => by simp at h

theorem informed_cons (h : s.Hearkens e) (hi : (s.step e).1.Informed es) : s.Informed (e :: es) := by
  intro fs f gs hsplit
  cases fs with
  | nil =>
    obtain ⟨rfl, -⟩ := List.cons.inj hsplit
    exact h
  | cons g fs =>
    obtain ⟨rfl, rfl⟩ := List.cons.inj hsplit
    exact hi fs f gs rfl

/-- **A record that fails for a neighbor has a bad one, and among good ones it
does not matter who they are.** -/
theorem neighborly (h : build config connected = .ok s) (ho : Owned es) (hi : s.Informed es) :
    s.Neighborly es := by
  have failed : ∀ fs e gs t err, es = fs ++ e :: gs → (s.run fs).1.shared.fatal = none →
      (t, .error err) ∈ completions (deeds ((s.run fs).1.step e).2) → err.errorClass = .programmer →
        (∃ draft present, .called (.send draft t present) ∈ es ∧ Addressed es draft (.error err)) ∨
          ∃ d v, (s.run fs).1.Answers e d v ∧ d.Cause t v err := by
    intro fs e gs t err hsplit hf hm hclass
    have hk := kept_build h fs (hsplit ▸ ho)
    rcases failed_step hk hf (hi fs e gs hsplit) hm with rfl | hterminal | hqueued | hcause
    · cases hclass
    · rw [Delivery.errorClass_of_isTerminal hterminal] at hclass
      cases hclass
    · obtain ⟨w, hw, p, hp, rfl, ht⟩ := hqueued
      obtain ⟨draft, present, hsent, -, haddressed⟩ :=
        ((traced_run h hi fs (e :: gs) hsplit).worker w hw).queue p hp
      exact Or.inl ⟨draft, present, hsent, ht ▸ haddressed⟩
    · exact Or.inr hcause
  have sound : ∀ config ops, ((Broker.start config).run ops).coordinator.Sound := fun _ ops =>
    Broker.sound_run (Coordinator.sound_start _) ops
  refine ⟨fun fs gs hsplit => (traced_run h hi fs gs hsplit).worker, ?_, ?_, ?_, ?_⟩
  · intro fs e gs t size max hsplit hf hm
    rcases failed fs e gs t _ hsplit hf hm rfl with ⟨draft, present, -, haddressed⟩ | ⟨d, v, ha, hc⟩
    · -- no record is queued as too large
      exact haddressed.elim
    · exact ⟨d, v, ha, Delivery.overfilled_of_cause hc⟩
  · intro fs e gs t topic n hsplit hf hm
    rcases failed fs e gs t _ hsplit hf hm rfl with ⟨draft, present, hsent, hstray⟩ | ⟨d, v, ha, hc⟩
    · exact Or.inl ⟨draft, present, hsent, hstray⟩
    · exact Or.inr ⟨d, v, ha, Delivery.lacking_of_cause hc⟩
  · intro d hd config ops visible times p t hlen b
    rw [served_eq hd.worker hd.shared]
    exact Delivery.acked_attend (sound config ops) hd.idle hd.unfailing visible hlen
  · intro d hd r d' hd' hx hid config ops visible visible' times times' p t t' hp hlen hlen' b
      hgood hgood'
    rw [served_eq hd.worker hd.shared, served_eq hd'.worker hd'.shared,
      Delivery.acked_of_unspoiled (sound config ops) hd.idle hd.unfailing hlen hgood,
      Delivery.acked_of_unspoiled (sound config ops) hd'.idle hd'.unfailing hlen' hgood', hx, hid]
    exact ⟨fun h => h.of_imp hp.mp, fun h => h.of_imp hp.mpr⟩

/-- A broker that takes records of four bytes at most, with the topics "T" and
"U" of one partition each. -/
def narrow : Broker :=
  (Broker.start { BrokerConfig.default with maxRecordBytes := 4 }).run
    [.createTopic "T" 1, .createTopic "U" 1]

def small : Draft := ⟨"T", some 0, none, ⟨#[1]⟩, some 1⟩

/-- A small record is sent, one for another topic, and a large one. -/
def crowded : List Event := [
  .called .init, .answered (narrow.handle .zero (.init "tx" (.ofSecs 60))).2,
  .called .begin, .round 1,
  .called (.send small ⟨0, .future⟩ 0), .answered (narrow.handle .zero (.listing "T")).2,
  .called (.send ⟨"U", some 0, none, ⟨#[2]⟩, some 2⟩ ⟨1, .future⟩ 0),
  .answered (narrow.handle .zero (.listing "U")).2,
  .called (.send ⟨"T", some 0, none, ⟨#[1, 2, 3, 4, 5]⟩, some 3⟩ ⟨2, .future⟩ 0)]

/-- The worker has the three records when the session has sent them. -/
theorem neighborly_crowded : build Scene.settings true = .ok (fresh Scene.settings) ∧
    Owned crowded ∧ (fresh Scene.settings).Informed crowded ∧
    (∃ d, ((fresh Scene.settings).run crowded).1.Ready d ∧ (d.taken 3).length = 3) ∧
    (fresh Scene.settings).Neighborly crowded := by
  have howned : Owned crowded := owned_of_notMem (by simp [crowded])
  have hears : ∀ {s : Session} {q : Request}, s.stance.request? = some q →
      s.Hearkens (.answered (narrow.handle .zero q).2) := fun {s q} hq q' hq' => by
    obtain rfl := Option.some.inj (hq.symm.trans hq')
    exact ⟨.handled narrow .zero, rfl⟩
  have hinformed : (fresh Scene.settings).Informed crowded :=
    informed_cons trivial <| informed_cons (hears rfl) <| informed_cons trivial <|
    informed_cons trivial <| informed_cons trivial <| informed_cons (hears rfl) <|
    informed_cons trivial <| informed_cons (hears rfl) <| informed_cons trivial informed_nil
  exact ⟨build_settings, howned, hinformed, ⟨⟨_, _⟩, ⟨rfl, rfl, rfl, rfl⟩, rfl⟩,
    neighborly build_settings howned hinformed⟩

/-- **The small record is acknowledged in a round of its own, and spoiled in a
longer one**: by the large record, or by the other topic if that is gone. -/
theorem spoiled_crowded :
    let s := ((fresh Scene.settings).run crowded).1
    let b := narrow.act (.request .zero (.init "tx" (.ofSecs 60)))
    let gone := b.act (.deleteTopic "U")
    (∃ d, s.Ready d) ∧ (small.record 0).size ≤ b.config.maxRecordBytes ∧
    (b.log? ⟨"T", 0⟩).isSome = true ∧ (gone.log? ⟨"T", 0⟩).isSome = true ∧
    Acked ⟨"T", 0⟩ ⟨0, .future⟩ (s.served b 1 [.zero, .zero]) ∧
    Acked ⟨"T", 0⟩ ⟨0, .future⟩ (s.served gone 1 [.zero, .zero]) ∧
    (⟨0, .future⟩, .error (.recordTooLarge 5 4)) ∈
      completions (s.served b 3 [.zero, .zero, .zero]) ∧
    (⟨0, .future⟩, .error (.unknownPartition "U" 0)) ∈ completions (s.served gone 2 [.zero]) := by
  exact ⟨⟨⟨_, _⟩, ⟨rfl, rfl, rfl, rfl⟩⟩, by decide +kernel, by decide +kernel, by decide +kernel,
    ⟨_, List.mem_cons_self, rfl⟩, ⟨_, List.mem_cons_self, rfl⟩, by decide +kernel, by decide +kernel⟩

end Session
end FencedLog
