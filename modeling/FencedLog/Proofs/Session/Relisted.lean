/-
# When a session asks for the partitions of a topic again

A send fails for an unknown partition because a request of the worker is refused
for it, because it asks for a partition beyond those that are listed, or because
its topic cannot be listed. When the session or its worker finds this
(`Session.Finds`), what was known of the topic is forgotten, and until the session
is told of it again it asks before it routes a record there (`Session.relists`).

Two findings are passed over (`Session.PassesOver`). The refusal of a listing may
name another topic than was asked for. And a topic that is listed without
partitions stays known, so that every send to it fails without a request
(`Session.fails_unasked`, `Session.not_relisted`).

Key definitions: `Session.Finds`, `Session.PassesOver`, `Session.Relists`.
Key theorems: `Delivery.unknown_answered`, `Session.found_routed`,
`Session.forgets`, `Session.failed_unknown`, `Session.relists`.
-/
import FencedLog.Proofs.Session.Once
import FencedLog.Proofs.Session.Routing

namespace FencedLog

/-! ### The worker -/

namespace Delivery

variable {d : Delivery} {t : Ticket} {topic : String} {n : Int}

theorem eq_of_ofBroker {x : String} {id : Identity} {err : BrokerError}
    (h : DeliveryError.ofBroker x id err = .unknownPartition topic n) :
    err = .unknownPartition topic n := by
  cases err <;> simp_all [DeliveryError.ofBroker, BrokerError.isRetriable]

/-- A record fails with an answer for an unknown partition only if the answer
says so. -/
theorem unknown_answered (hf : d.shared.fatal = none) {answer : Answer}
    (h : (t, .error (.unknownPartition topic n)) ∈ completions (d.answered answer).2) :
    t ∈ held d.worker.phase ∧ d.worker.request? ≠ none ∧
      answer = .error (.unknownPartition topic n) := by
  have hnone : ∀ e, d.shared.fatal = some e → e.isTerminal = true := by simp [hf]
  unfold answered at h
  split at h
  · rename_i fresh batches barrier _
    -- a worker that goes on fails records by a terminal error only
    exact nomatch terminal_appendNext barrier batches
      (d := { d with worker := { d.worker with enrolled := d.worker.enrolled ++ fresh } }) hnone h
  · rename_i fresh batches barrier err hp
    obtain ⟨ht, he⟩ := of_mem_failAll h
    rw [Worker.request?, hp]
    exact ⟨ht, by simp, congrArg Except.error (eq_of_ofBroker he.symm)⟩
  · rename_i batch rest barrier base _
    rw [completions_append, List.mem_append] at h
    exact nomatch terminal_appendNext barrier rest
      (d := { d with shared := d.shared.countAcknowledged batch.items.length }) hnone
      (h.resolve_left not_mem_placeAll)
  · rename_i batch rest barrier err hp
    rw [completions_append, List.mem_append] at h
    rcases h with h | h
    · obtain ⟨ht, he⟩ := of_mem_failAll h
      rw [Worker.request?, hp]
      exact ⟨List.mem_append_left _ ht, by simp, congrArg Except.error (eq_of_ofBroker he.symm)⟩
    · exact nomatch terminal_appendNext barrier rest (d := { (d.refused err).1 with
        shared := (d.refused err).1.shared.countFailed batch.items.length })
        (terminal_refused hf err) h
  · simp [completions] at h

/-- A worker that hears of an unknown partition forgets the topic. -/
theorem forgets_answered (hq : d.worker.request? ≠ none) :
    (d.answered (.error (.unknownPartition topic n))).1.shared.topics.get? topic = none := by
  have hrefused : (d.refused (.unknownPartition topic n)).1.shared.topics.get? topic = none := by
    simp [refused, DeliveryError.ofBroker, DeliveryError.isTerminal, Shared.forget]
  unfold answered
  cases hp : d.worker.phase with
  | idle => simp [Worker.request?, hp] at hq
  | stopped => simp [Worker.request?, hp] at hq
  | enrolling ps batches barrier =>
    simp only [reach_shared]
    exact hrefused
  | appending batch rest barrier =>
    simp only [(passes_appendNext barrier rest _).topics]
    exact hrefused

end Delivery

/-! ### Findings -/

namespace Session

variable {s s₁ : Session} {e : Event} {x : Routed} {t : Ticket} {topic : String} {n : Int}

/-- It is found that the topic does not have the partition, when the send comes up
with it. -/
inductive Finds (s : Session) (e : Event) (t : Ticket) (topic : String) (n : Int) : Prop
  /-- The worker's request is refused. -/
  | refused (w : Worker) (hw : s.worker = some w) (hq : w.request? ≠ none)
      (ht : t ∈ Delivery.held w.phase) (he : e = .delivered (.error (.unknownPartition topic n)))
  /-- The partition is none of those that are listed. -/
  | beyond (s₁ : Session) (x : Routed) (hx : s.routes e = some (s₁, x)) (ht : x.ticket = t)
      (htopic : x.draft.topic = topic) (hp : x.draft.partition = some n) (count : Nat)
      (hc : x.count = some count) (hpos : 0 < count) (hout : n < 0 ∨ (count : Int) ≤ n)
  /-- The topic cannot be listed. -/
  | unlisted (draft : Draft) (present : Int) (hw : s.wait = .routing draft t present)
      (htopic : draft.topic = topic) (he : e = .answered (.error (.unknownPartition topic n)))

/-- The same is found, and passed over. -/
inductive PassesOver (s : Session) (e : Event) (t : Ticket) (topic : String) (n : Int) : Prop
  /-- The topic is listed without partitions. -/
  | empty (s₁ : Session) (x : Routed) (hx : s.routes e = some (s₁, x)) (ht : x.ticket = t)
      (htopic : x.draft.topic = topic) (hc : x.count = some 0)
  /-- Another topic was asked for. -/
  | misnamed (draft : Draft) (present : Int) (hw : s.wait = .routing draft t present)
      (hne : draft.topic ≠ topic) (he : e = .answered (.error (.unknownPartition topic n)))

theorem unknown_route {draft : Draft} {count : Nat}
    (h : (s.route draft count).2 = .error (.unknownPartition topic n)) : draft.topic = topic ∧
      (count = 0 ∨ (0 < count ∧ draft.partition = some n ∧ (n < 0 ∨ (count : Int) ≤ n))) := by
  unfold route at h
  split at h
  · rename_i hzero
    simp only [Except.error.injEq, DeliveryError.unknownPartition.injEq] at h
    exact ⟨h.1, Or.inl hzero⟩
  · rename_i hpos
    split at h
    · rename_i p _ hp
      split at h
      · rename_i hout
        simp only [Except.error.injEq, DeliveryError.unknownPartition.injEq] at h
        obtain ⟨rfl, rfl⟩ := h
        exact ⟨rfl, Or.inr ⟨Nat.pos_of_ne_zero hpos, hp, hout⟩⟩
      · cases h
    · cases h
    · cases h

/-- What is asked for beyond the listed partitions makes the topic forgotten. -/
theorem forgets_beyond {draft : Draft} {count : Nat} (hp : draft.partition = some n)
    (hpos : 0 < count) (hout : n < 0 ∨ (count : Int) ≤ n) (ticket : Ticket) (present : Int) :
    (s.direct draft ticket present count).1.shared.topics.get? draft.topic = none := by
  unfold direct route
  rw [if_neg (Nat.ne_of_gt hpos), hp]
  simp only [if_pos hout, Shared.forget, Table.get?_erase_self]

/-- A record that is routed nowhere for an unknown partition is a finding. -/
theorem found_routed (hx : s.routes e = some (s₁, x))
    (h : x.target = .error (.unknownPartition topic n)) :
    s.Finds e x.ticket topic n ∨ s.PassesOver e x.ticket topic n := by
  cases routes_cases hx with
  | known draft ticket present infos =>
    obtain ⟨htopic, hzero | ⟨hpos, hp, hout⟩⟩ := unknown_route h
    · exact Or.inr (.empty _ _ hx rfl htopic (congrArg some hzero))
    · exact Or.inl (.beyond _ _ hx rfl htopic hp infos.length rfl hpos hout)
  | told draft ticket present infos =>
    obtain ⟨htopic, hzero | ⟨hpos, hp, hout⟩⟩ := unknown_route h
    · exact Or.inr (.empty _ _ hx rfl htopic (congrArg some hzero))
    · exact Or.inl (.beyond _ _ hx rfl htopic hp infos.length rfl hpos hout)
  | refused draft ticket present err he hw =>
    have herr : err = .unknownPartition topic n := by
      simp only [unlisted, Except.error.injEq] at h
      split at h
      · exact Delivery.eq_of_ofBroker h
      · cases h
    subst herr
    by_cases htopic : draft.topic = topic
    · exact Or.inl (.unlisted draft present hw htopic he)
    · exact Or.inr (.misnamed draft present hw htopic he)

theorem topics_routed (hx : s.routes e = some (s₁, x)) :
    (s.step e).1.shared.topics = s₁.shared.topics := by
  rw [step_routes hx, enqueue]
  exact (takesUp_push _ _ _).topics

/-- **What is found is acted on**: the topic is forgotten. -/
theorem forgets (hs : s.Wonders) (h : s.Finds e t topic n) :
    (s.step e).1.shared.topics.get? topic = none := by
  cases h with
  | refused w hw hq _ he =>
    subst he
    simp only [step, deliver, hw]
    exact Delivery.forgets_answered (d := ⟨w, s.shared⟩) hq
  | beyond s₁ x hx ht htopic hp count hc hpos hout =>
    rw [topics_routed hx]
    subst htopic
    cases routes_cases hx with
    | known draft ticket present infos =>
      obtain rfl := Option.some.inj hc
      exact forgets_beyond hp hpos hout ticket present
    | told draft ticket present infos =>
      obtain rfl := Option.some.inj hc
      exact forgets_beyond hp hpos hout ticket present
    | refused => cases hc
  | unlisted draft present hw htopic he =>
    subst htopic he
    have hx : s.routes (.answered (.error (.unknownPartition draft.topic n))) =
        some (s, s.unlisted draft t present (.unknownPartition draft.topic n)) := by
      simp only [routes, hw]
    rw [topics_routed hx]
    exact hs draft t present hw

/-- What is listed without partitions stays known. -/
theorem known_of_empty (hx : s.routes e = some (s₁, x)) (hc : x.count = some 0) :
    (s.step e).1.shared.topics.get? x.draft.topic = some [] := by
  rw [topics_routed hx]
  cases routes_cases hx with
  | known draft ticket present infos he hw ht =>
    obtain rfl := List.eq_nil_of_length_eq_zero (Option.some.inj hc)
    exact ht
  | told draft ticket present infos =>
    obtain rfl := List.eq_nil_of_length_eq_zero (Option.some.inj hc)
    exact Table.get?_put_self _ _ _
  | refused => cases hc

/-- **After a topic is listed without partitions, the next send to it fails, and
nothing is asked.** -/
theorem fails_unasked (hx : s.routes e = some (s₁, x)) (hc : x.count = some 0) {draft : Draft}
    (ht : draft.topic = x.draft.topic) (hw : (s.step e).1.wait = .nothing)
    (hl : (s.step e).1.lifecycle = .inTransaction) (ticket : Ticket) (present : Int) :
    (s.step e).1.step (.called (.send draft ticket present)) =
      (s.step e).1.enqueue draft ticket present
        (.error (.unknownPartition draft.topic (draft.partition.getD (-1)))) := by
  have hknown := known_of_empty hx hc
  rw [← ht] at hknown
  generalize (s.step e).1 = r at hw hl hknown
  rw [step, hw]
  simp only [called, if_pos hl, send, hknown]
  rfl

/-! ### Failures -/

/-- **A send that fails for an unknown partition does so with a finding now, or
was routed nowhere before.** -/
theorem failed_unknown (hf : s.shared.fatal = none)
    (h : (t, .error (.unknownPartition topic n)) ∈ completions (deeds (s.step e).2)) :
    s.Finds e t topic n ∨
      ∃ p ∈ s.onHand, p.ticket = t ∧ p.target = .error (.unknownPartition topic n) := by
  have loud : ¬ Quiet (s.step e).2 := fun hq => nomatch hq _ _ h
  cases course_step s e with
  | onward _ hup => exact absurd hup.quiet loud
  | learned _ _ _ _ _ hup => exact absurd hup.quiet loud
  | routed _ _ _ hup => exact absurd hup.quiet loud
  | moved _ _ hd =>
    rcases hd with hq | ⟨visible, rfl⟩ | ⟨answer, rfl⟩
    · exact absurd hq loud
    · simp only [step, deliver] at h
      cases hw : s.worker with
      | none => simp [hw, deeds, completions] at h
      | some w =>
        simp only [hw, deeds_map] at h
        obtain ⟨p, hp, hfail⟩ := Delivery.failed_round (d := ⟨w, s.shared⟩) hf h
        refine Or.inr ⟨p, ?_, hfail⟩
        rw [onHand, hw]
        exact List.mem_append_left _ hp
    · simp only [step, deliver] at h
      cases hw : s.worker with
      | none => simp [hw, deeds, completions] at h
      | some w =>
        simp only [hw, deeds_map] at h
        obtain ⟨ht, hq, rfl⟩ := Delivery.unknown_answered (d := ⟨w, s.shared⟩) hf h
        exact Or.inl (.refused w hw hq ht rfl)

/-- The session asks for the partitions of the topic before it routes a record
there. -/
structure Relists (s : Session) (topic : String) : Prop where
  forgotten : s.shared.topics.get? topic = none
  asks : ∀ draft ticket present, draft.topic = topic → s.wait = .nothing →
    s.lifecycle = .inTransaction → s.step (.called (.send draft ticket present)) =
      ({ s with wait := .routing draft ticket present }, [.asked (.listing topic)])

theorem relists_of_unknown (h : s.shared.topics.get? topic = none) : s.Relists topic where
  forgotten := h
  asks := fun draft ticket present ht hw hl => by
    subst ht
    rw [step, hw]
    simp only [called, if_pos hl, send, h]
    rfl

theorem run_from (s : Session) (fs : List Event) (e : Event) (gs : List Event) :
    (s.run (fs ++ e :: gs)).1 = (((s.run fs).1.step e).1.run gs).1 := by
  rw [run_append]
  rfl

/-- Once it is found, the session relists the topic, until it is told of it. -/
theorem relists_of_finds {fs : List Event} (hs : (s.run fs).1.Wonders)
    (h : (s.run fs).1.Finds e t topic n) {gs : List Event}
    (hno : ∀ ks k ls, gs = ks ++ k :: ls → ¬ (s.run (fs ++ e :: ks)).1.Learns k topic) :
    (s.run (fs ++ e :: gs)).1.Relists topic := by
  rw [run_from]
  apply relists_of_unknown
  refine unknown_run gs (forgets hs h) fun ks k ls hsplit => ?_
  rw [← run_from]
  exact hno ks k ls hsplit

/-- **Stale metadata heals, but for what is passed over.** A send that fails for an
unknown partition goes back to an event that finds it; and unless that is passed
over, the session asks for the partitions of the topic again, at any time later
before it is told of them. -/
theorem relists {config : SessionConfig} {connected : Bool} {s : Session}
    (h : build config connected = .ok s) {fs : List Event} {e : Event} {t : Ticket}
    {topic : String} {n : Int} (hf : (s.run fs).1.shared.fatal = none)
    (hm : (t, .error (.unknownPartition topic n)) ∈
      completions (deeds ((s.run fs).1.step e).2)) :
    ∃ hs f is, fs ++ [e] = hs ++ f :: is ∧
      (((s.run hs).1.Finds f t topic n ∧ ∀ js : List Event,
          (∀ ks k ls, is ++ js = ks ++ k :: ls → ¬ (s.run (hs ++ f :: ks)).1.Learns k topic) →
            (s.run (fs ++ e :: js)).1.Relists topic) ∨
        (s.run hs).1.PassesOver f t topic n) := by
  obtain ⟨hwonders, hempty⟩ : s.Wonders ∧ s.onHand = [] := by
    unfold build at h
    split at h
    · cases h
    · split at h <;> cases h
      exact ⟨wonders_of_free trivial, rfl⟩
  have hall : ∀ gs, (s.run gs).1.Wonders := fun gs =>
    run_keeps (fun _ _ hs => wonders_step hs) gs s hwonders
  rcases failed_unknown hf hm with hfinds | ⟨p, hp, rfl, htarget⟩
  · exact ⟨fs, e, [], rfl, Or.inl ⟨hfinds, fun js hno => relists_of_finds (hall fs) hfinds hno⟩⟩
  · obtain ⟨hs, f, is, s₁, x, rfl, hx, rfl⟩ := onHand_run fs hempty hp
    refine ⟨hs, f, is ++ [e], by simp, ?_⟩
    rcases found_routed hx htarget with hfinds | hpasses
    · refine Or.inl ⟨hfinds, fun js hno => ?_⟩
      have hlater := relists_of_finds (hall hs) hfinds hno
      simpa using hlater
    · exact Or.inr hpasses

/-- A record is sent to "T", to the given partition if any; the session is told these
partitions when it asks. -/
def sendOne (partition : Option Int) (infos : List PartitionInfo) : List Event := [
  .called .init, .answered (.ok (.identity ⟨1000, 0⟩)), .called .begin, .round 1,
  .called (.send ⟨"T", partition, none, ⟨#[1]⟩, some 1⟩ ⟨0, .callback⟩ 0),
  .answered (.ok (.partitions infos))]

/-- The topic has one partition, and the record asks for another. -/
theorem relists_sendOne :
    let s := fresh Scene.settings
    let fs := sendOne (some 9) [⟨"T", 0, none⟩]
    build Scene.settings true = .ok s ∧ (s.run fs).1.shared.fatal = none ∧
    (⟨0, .callback⟩, .error (.unknownPartition "T" 9)) ∈
      completions (deeds ((s.run fs).1.step (.round 1)).2) ∧
    (∃ hs f is, fs ++ [.round 1] = hs ++ f :: is ∧
      (((s.run hs).1.Finds f ⟨0, .callback⟩ "T" 9 ∧ ∀ js : List Event,
          (∀ ks k ls, is ++ js = ks ++ k :: ls → ¬ (s.run (hs ++ f :: ks)).1.Learns k "T") →
            (s.run (fs ++ .round 1 :: js)).1.Relists "T") ∨
        (s.run hs).1.PassesOver f ⟨0, .callback⟩ "T" 9)) ∧
    (s.run (fs ++ [.round 1])).1.Relists "T" := by
  intro s fs
  have hf : (s.run fs).1.shared.fatal = none := rfl
  have hm : (⟨0, .callback⟩, .error (.unknownPartition "T" 9)) ∈
      completions (deeds ((s.run fs).1.step (.round 1)).2) := by decide +kernel
  have hnow : (s.run (fs ++ [.round 1])).1.shared.topics.get? "T" = none := by decide +kernel
  exact ⟨build_settings, hf, hm, relists build_settings hf hm, relists_of_unknown hnow⟩

/-- **A topic that is listed without partitions is not asked for again**: the record
has failed, nothing is left to do, and the next send fails without a request. -/
theorem not_relisted :
    let s := fresh Scene.settings
    let fs := sendOne none []
    let r := (s.run (fs ++ [.round 1])).1
    build Scene.settings true = .ok s ∧ (s.run fs).1.shared.fatal = none ∧
    completions (deeds ((s.run fs).1.step (.round 1)).2) =
      [(⟨0, .callback⟩, .error (.unknownPartition "T" (-1)))] ∧
    r.shared.fatal = none ∧ r.wait = .nothing ∧ r.lifecycle = .inTransaction ∧
    r.onHand = [] ∧ r.outstanding = [] ∧ ¬ r.Relists "T" ∧
    ∀ q, .asked q ∉
      (r.step (.called (.send ⟨"T", none, none, ⟨#[2]⟩, some 2⟩ ⟨1, .callback⟩ 0))).2 := by
  refine ⟨build_settings, rfl, rfl, rfl, rfl, rfl, rfl, rfl, fun h => ?_, fun q hq => ?_⟩
  · have hknown : ((fresh Scene.settings).run (sendOne none [] ++ [.round 1])).1.shared.topics.get?
        "T" = some [] := by decide +kernel
    rw [h.forgotten] at hknown
    cases hknown
  · have hq : Effect.asked q ∈ [Effect.returned (.ok .done)] := hq
    simp at hq

end Session
end FencedLog
