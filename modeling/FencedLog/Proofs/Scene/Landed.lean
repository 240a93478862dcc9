/-
# The receipts of a worker are in the logs

An act that is not somebody else's adds to the logs the data entries of the
records that it appends for the worker, and no others (`data_act`). What it
appends is in the logs then, under the worker's identity and after all that was
there (`Kept`), and stays there until its topic is deleted. The worker is about
to acknowledge nothing else: what is in flight was appended at some point of the
run.

Key definitions: `Receipt.entry`, `Receipt.spot`, `Scene.Kept`.
Key theorems: `Scene.data_act`, `Scene.landed_act`, `Scene.kept_appended`,
`Scene.Kept.run`, `Scene.landed_run`.
-/
import FencedLog.Proofs.Broker.Data
import FencedLog.Proofs.Scene.History
import FencedLog.Proofs.Scene.Sealed

namespace FencedLog

namespace Receipt

/-- The entry of a record that was appended under an identity. -/
def entry (r : Receipt) (id : Option Identity) : Entry :=
  .data r.offset (id.map (·.producer)) r.record

def spot (r : Receipt) : TopicPartition × Nat := (r.partition, r.offset)

end Receipt

theorem entries_receipts (p : TopicPartition) (id : Option Identity) :
    ∀ (loads : List Load) (base : Nat), (receipts p base loads).map (·.entry id) =
      Log.entriesFrom base (id.map (·.producer)) (loads.map (·.1))
  | [], _ => rfl
  | _ :: loads, base => congrArg (_ :: ·) (entries_receipts p id loads (base + 1))

/-- A receipt is for the record at its place. -/
theorem mem_receipts {p : TopicPartition} {r : Receipt} : ∀ {loads : List Load} {base : Nat},
    r ∈ receipts p base loads →
      r.partition = p ∧ ∃ j, r.offset = base + j ∧ (loads.map (·.1))[j]? = some r.record
  | (record, ticket) :: loads, base, h => by
    rcases List.mem_cons.mp h with rfl | h
    · exact ⟨rfl, 0, rfl, rfl⟩
    · obtain ⟨hp, j, hoff, hr⟩ := mem_receipts h
      exact ⟨hp, j + 1, by omega, hr⟩

/-- An append takes each offset once. -/
theorem nodup_receipts (p : TopicPartition) : ∀ (loads : List Load) (base : Nat),
    ((receipts p base loads).map Receipt.spot).Nodup
  | [], _ => List.nodup_nil
  | _ :: loads, base => by
    refine List.nodup_cons.mpr ⟨fun h => ?_, nodup_receipts p loads (base + 1)⟩
    obtain ⟨r, hr, he⟩ := List.mem_map.mp h
    obtain ⟨-, j, hoff, -⟩ := mem_receipts hr
    have : r.offset = base := congrArg Prod.snd he
    omega

/-- What has landed was appended at consecutive offsets of one partition. -/
theorem Worker.landed_receipts (w : Worker) (line : Line) :
    ∃ p base loads, w.landed line = receipts p base loads := by
  have none : ∃ p base loads, [] = receipts p base loads := ⟨⟨"", 0⟩, 0, [], rfl⟩
  unfold landed
  split
  · split
    · exact ⟨_, _, _, rfl⟩
    all_goals exact none
  · exact none

/-- What has landed is in the cargo of the worker. -/
theorem Worker.landed_cargo (w : Worker) (line : Line) :
    ((w.landed line).map Receipt.key).Sublist (w.cargo.map Freight.key) := by
  unfold landed
  split
  · split
    · rename_i batch rest barrier hp
      rw [keys_receipts, cargo, hp, Phase.loads, List.append_assoc, List.map_append]
      exact List.sublist_append_left _ _
    all_goals exact List.nil_sublist _
  · exact List.nil_sublist _

namespace Scene

variable {σ τ : Scene} {a : Act}

/-! ### The broker -/

/-- An act does at most one thing to the broker, and only others delete
topics. -/
theorem chronicle_moves (σ : Scene) (a : Act) : (σ.act a).chronicle = σ.chronicle ∨
    ∃ op, (σ.act a).chronicle = σ.chronicle.act op ∧
      ∀ topic, op = .deleteTopic topic → a = .others (.deleteTopic topic) := by
  cases a with
  | others op => exact Or.inr ⟨op, rfl, fun topic h => congrArg Act.others h⟩
  | reach side now lost =>
    cases side <;> simp only [act] <;> split
    · exact Or.inr ⟨.request now _, rfl, by simp⟩
    · exact Or.inl rfl
    · exact Or.inr ⟨.request now _, rfl, by simp⟩
    · exact Or.inl rfl
  | _ => exact Or.inl (chronicle_act σ (by simp) (by simp))

/-- An entry stays unless its topic is deleted. -/
theorem entryAt_act {p : TopicPartition} {i : Nat} {x : Entry}
    (h : σ.chronicle.broker.entryAt p i = some x) (hd : a ≠ .others (.deleteTopic p.topic)) :
    (σ.act a).chronicle.broker.entryAt p i = some x := by
  rcases chronicle_moves σ a with hc | ⟨op, hc, hop⟩
  · rw [hc]
    exact h
  · rw [hc]
    exact Broker.entryAt_act h fun he => hd (hop _ he)

theorem accounted_act (h : σ.chronicle.Accounted) (a : Act) : (σ.act a).chronicle.Accounted := by
  rcases chronicle_moves σ a with hc | ⟨op, hc, -⟩
  · rw [hc]
    exact h
  · rw [hc]
    exact Chronicle.accounted_act h op

/-- A request of the worker that the broker answers adds the records that
land. -/
theorem data_landed {b : Broker} {w : Worker} {now : Span} {q : Request}
    (hq : (∃ fresh batches barrier, w.phase = .enrolling fresh batches barrier ∧
        q = .enroll w.txid w.identity fresh) ∨
      ∃ batch rest barrier, w.phase = .appending batch rest barrier ∧
        q = .append w.txid w.identity batch.partition batch.records) (p : TopicPartition) :
    (b.handle now q).1.data p = b.data p ++
      ((w.landed (.replied (b.handle now q).2)).filter (·.partition = p)).map
        (·.entry (some w.identity)) := by
  rcases hq with ⟨fresh, batches, barrier, hp, rfl⟩ | ⟨batch, rest, barrier, hp, rfl⟩
  · rw [landed_of_phase (by simp [hp]), List.filter_nil, List.map_nil, List.append_nil]
    exact Broker.data_request (by simp)
  · rcases fits_append (fits_handle b now (.append w.txid w.identity batch.partition batch.records))
      with ⟨base, ha⟩ | ⟨e, ha⟩
    · have hland : w.landed (.replied (.ok (.appended base))) =
          receipts batch.partition base batch.items := by
        simp only [Worker.landed, hp]
      rw [Broker.data_append ha, ha, hland]
      by_cases hbp : batch.partition = p
      · have hall : (receipts batch.partition base batch.items).filter (·.partition = p) =
            receipts batch.partition base batch.items :=
          List.filter_eq_self.mpr fun r hr => by simpa [(mem_receipts hr).1] using hbp
        rw [if_pos hbp, hall, entries_receipts]
        rfl
      · have hnone : (receipts batch.partition base batch.items).filter (·.partition = p) = [] :=
          List.filter_eq_nil_iff.mpr fun r hr => by simpa [(mem_receipts hr).1] using hbp
        rw [if_neg hbp, hnone]
        rfl
    · rw [Broker.data_refused ha, ha]
      simp [Worker.landed]

/-- **The data entries that an act of the session adds are those of the records
that it appends for the worker.** -/
theorem data_act (hc : σ.Coupled) (ho : ∀ op, a ≠ .others op) (p : TopicPartition) :
    (σ.act a).chronicle.broker.data p = σ.chronicle.broker.data p ++
      ((σ.appended a).filter (·.partition = p)).map (·.entry σ.session.identity) := by
  have still : (σ.act a).chronicle = σ.chronicle → σ.appended a = [] →
      (σ.act a).chronicle.broker.data p = σ.chronicle.broker.data p ++
        ((σ.appended a).filter (·.partition = p)).map (·.entry σ.session.identity) := by
    intro hchron hnone
    rw [hchron, hnone, List.filter_nil, List.map_nil, List.append_nil]
  cases a with
  | others op => exact absurd rfl (ho op)
  | reach side now lost =>
    cases side with
    | own =>
      cases hl : σ.own with
      | sent q =>
        have hq : ∀ x id p rs, q ≠ .append x id p rs := by
          rcases hc.asked hl with ⟨-, timeout, rfl⟩ | ⟨topic, rfl, -⟩ | ⟨o, back, id, -, -, rfl⟩ <;> simp
        simp only [act, hl, appended, List.filter_nil, List.map_nil, List.append_nil]
        exact Broker.data_request hq
      | _ => exact still (by simp only [act, hl]) rfl
    | work =>
      cases hl : σ.work with
      | sent q =>
        obtain ⟨w, hw, hm, hq⟩ := hc.ordered hl
        have hw' : σ.session.worker = some w := hw
        have hid : σ.session.identity = some w.identity := hm.identity
        simp only [act, hl, appended, hw', hid]
        exact data_landed hq p
      | _ => exact still (by simp only [act, hl]) (by simp only [appended, hl])
  | _ => exact still (chronicle_act σ (by simp) (by simp)) rfl

/-! ### What is in flight -/

/-- The log has the record of the receipt, under the session's identity. -/
def Kept (σ : Scene) (r : Receipt) : Prop :=
  ∃ id, σ.session.identity = some id ∧
    σ.chronicle.broker.entryAt r.partition r.offset = some (r.entry (some id))

/-- Who has an identity keeps it. -/
theorem Step.identity (hs : σ.Step a τ) (hc : σ.Coupled) {id : Identity}
    (h : σ.session.identity = some id) : τ.session.identity = some id := by
  cases hs with
  | turn a e τ hcall hanswer ht =>
    have hkeeps : τ.session.identity = σ.session.identity := by
      rcases ht.stride.identity with ⟨-, hid⟩ | ⟨hl, -⟩
      · exact hid
      · have hnone := (hc.unmanned (hc.fresh hl)).1
        rw [show σ.session.stance.identity = some id from h] at hnone
        cases hnone
    rw [hkeeps, h]
  | moved a w w₀ w' barrier loads acked err q fatal started s' hw hsrc hn hfatal hst hen hv =>
    have hid : s'.identity = σ.session.identity := congrArg Stance.identity hv
    exact hid.trans h
  | stopped a w s' wait call' hw hwait hcall hv =>
    have hid : s'.identity = σ.session.identity := congrArg Stance.identity hv
    exact hid.trans h
  | _ => exact h

/-- Only a request that reaches the broker puts records in flight. -/
theorem landed_step (hc : σ.Coupled) (hτ : τ.Coupled) (hs : σ.Step a τ) :
    τ.landed ⊆ σ.landed ∨
      ∃ now lost q, a = .reach .work now lost ∧ σ.work = .sent q ∧ τ = σ.reachWork now lost q := by
  cases hs with
  | reachWork now lost q hq => exact Or.inr ⟨now, lost, q, rfl, hq, rfl⟩
  | refuseWork e q hq =>
    left
    have hnone : ({ σ with work := .replied (.error e) } : Scene).landed = [] := by
      unfold landed
      split <;> rfl
    rw [hnone]
    exact List.nil_subset _
  | turn a e τ hcall hanswer ht =>
    left
    rcases carries_turned hc hτ ht with hon | ⟨-, hland, -⟩
    · rw [hon.landed]
      exact List.Subset.refl _
    · rw [hland]
      exact List.nil_subset _
  | moved a w w₀ w' barrier loads acked err q fatal started s' hw hsrc hn hfatal hst hen hv =>
    left
    rw [landed_of_worker (w := w') (by rw [hv]), (carries_moved hsrc hn).1]
    exact List.nil_subset _
  | stopped a w s' wait call' hw hwait hcall hv =>
    left
    rw [landed_of_worker (by rw [hv])]
    exact List.nil_subset _
  | _ => exact Or.inl (List.Subset.refl _)

/-- What a request puts in flight it has just appended. -/
theorem landed_reachWork {now : Span} {lost : Option BrokerError} {q : Request}
    (hq : σ.work = .sent q) {r : Receipt} (hr : r ∈ (σ.reachWork now lost q).landed) :
    lost = none ∧ r ∈ σ.appended (.reach .work now none) := by
  cases hw : σ.session.worker with
  | none =>
    have hw' : (σ.reachWork now lost q).session.stance.worker = none := hw
    rw [landed, hw'] at hr
    exact absurd hr List.not_mem_nil
  | some w =>
    have hw' : (σ.reachWork now lost q).session.stance.worker = some w := hw
    rw [landed_of_worker hw'] at hr
    cases lost with
    | some e => exact absurd hr List.not_mem_nil
    | none =>
      refine ⟨rfl, ?_⟩
      simp only [appended, hq, hw]
      exact hr

/-- **What is in flight was so before, or has just been appended.** -/
theorem landed_act (hc : σ.Coupled) {r : Receipt} (hr : r ∈ (σ.act a).landed) :
    r ∈ σ.landed ∨ ∃ now, a = .reach .work now none ∧ r ∈ σ.appended a := by
  obtain ⟨hstep, hτ⟩ := hc.act a
  rcases landed_step hc hτ hstep with hsub | ⟨now, lost, q, rfl, hq, he⟩
  · exact Or.inl (hsub hr)
  · obtain ⟨rfl, happ⟩ := landed_reachWork hq (he ▸ hr)
    exact Or.inr ⟨now, rfl, happ⟩

/-- Only a request of the worker that reaches the broker appends. -/
theorem of_mem_appended {r : Receipt} (hr : r ∈ σ.appended a) : ∃ now lost q w,
    a = .reach .work now lost ∧ σ.work = .sent q ∧ σ.session.worker = some w ∧
      r ∈ w.landed (.replied (σ.chronicle.broker.handle now q).2) := by
  unfold appended at hr
  split at hr
  · rename_i now lost
    split at hr
    · rename_i q w hq hw
      exact ⟨now, lost, q, w, rfl, hq, hw, hr⟩
    · exact absurd hr List.not_mem_nil
  · exact absurd hr List.not_mem_nil

/-- **What an act appends is in the logs then**, after all that was there. -/
theorem kept_appended (hc : σ.Coupled) (hd : σ.chronicle.Accounted) {r : Receipt}
    (hr : r ∈ σ.appended a) : (σ.act a).Kept r ∧
      ∀ i x, σ.chronicle.broker.entryAt r.partition i = some x → i < r.offset := by
  obtain ⟨now, lost, q, w, rfl, hq, hw, hr⟩ := of_mem_appended hr
  obtain ⟨w', hw', hm, hreq⟩ := hc.ordered hq
  obtain rfl : w = w' := Option.some.inj (hw.symm.trans hw')
  have hact : σ.act (.reach .work now lost) = σ.reachWork now lost q := by simp only [act, hq]
  rw [hact]
  rcases hreq with ⟨fresh, batches, barrier, hp, rfl⟩ | ⟨batch, rest, barrier, hp, rfl⟩
  · rw [landed_of_phase (by simp [hp])] at hr
    exact absurd hr List.not_mem_nil
  · rcases fits_append (fits_handle σ.chronicle.broker now
      (.append w.txid w.identity batch.partition batch.records)) with ⟨base, ha⟩ | ⟨e, ha⟩
    · have hland : w.landed (.replied (.ok (.appended base))) =
          receipts batch.partition base batch.items := by
        simp only [Worker.landed, hp]
      rw [ha, hland] at hr
      obtain ⟨hpart, j, hoff, hrecord⟩ := mem_receipts hr
      obtain ⟨hthere, hbefore⟩ := Broker.entryAt_append (hd.dense batch.partition) ha
      refine ⟨⟨w.identity, hm.identity, ?_⟩, fun i x hx => ?_⟩
      · rw [hpart, hoff, Receipt.entry, hoff]
        exact hthere j r.record hrecord
      · rw [hpart] at hx
        have hlt := hbefore i x hx
        omega
    · rw [ha] at hr
      exact absurd hr List.not_mem_nil

/-! ### Runs -/

theorem Kept.act {r : Receipt} (h : σ.Kept r) (hc : σ.Coupled)
    (hd : a ≠ .others (.deleteTopic r.partition.topic)) : (σ.act a).Kept r := by
  obtain ⟨id, hid, hentry⟩ := h
  exact ⟨id, (hc.act a).1.identity hc hid, entryAt_act hentry hd⟩

/-- **What the logs have stays there** until its topic is deleted. -/
theorem Kept.run {r : Receipt} (h : σ.Kept r) (hc : σ.Coupled) : ∀ {as : List Act},
    .others (.deleteTopic r.partition.topic) ∉ as → (σ.run as).Kept r := by
  intro as
  induction as generalizing σ with
  | nil => exact fun _ => h
  | cons a as ih =>
    intro hno
    simp only [List.mem_cons, not_or] at hno
    exact ih (h.act hc fun he => hno.1 he.symm) (hc.act a).2 hno.2

/-- **What is in flight was appended at some point of the run.** -/
theorem landed_run {r : Receipt} : ∀ {as : List Act} {σ : Scene}, σ.Coupled →
    r ∈ (σ.run as).landed → r ∈ σ.landed ∨ ∃ before now since,
      as = before ++ .reach .work now none :: since ∧
        r ∈ (σ.run before).appended (.reach .work now none)
  | [], _, _, hr => Or.inl hr
  | a :: as, σ, hc, hr => by
    rcases landed_run (hc.act a).2 hr with hr | ⟨before, now, since, rfl, happ⟩
    · rcases landed_act hc hr with hr | ⟨now, rfl, happ⟩
      · exact Or.inl hr
      · exact Or.inr ⟨[], now, as, rfl, happ⟩
    · exact Or.inr ⟨a :: before, now, since, rfl, happ⟩

end Scene
end FencedLog
