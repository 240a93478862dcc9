/-
# Acknowledgments are truthful, and a send is appended at most once

In every run of a session, whichever of its requests fail on the way, whichever
answers are lost, and however its worker groups the records: no send has two
data entries in the logs, a send that fails for certain has none, and the record
of a send that is acknowledged was appended at the place that it is told. Between
the append and the completion others may delete the topic, since the broker does
not wait for the worker to hear of the append: the record is still there if they
have not (`History.acknowledges_truthfully`), and gone if they have
(`History.unkept_deletedUnheard`). No two sends are told the same place unless the
topic was deleted between the appends of their records.

Key definitions: `Scene.Stores`, `History.Sound`, `History.Apart`,
`History.Truthful`.
Key theorems: `History.Sound.act`, `History.Apart.act`,
`History.acknowledges_truthfully`.
-/
import Mathlib.Data.List.Nodup
import FencedLog.Proofs.Scene.Handoff
import FencedLog.Proofs.Scene.Landed

namespace FencedLog

/-- The partition and the offset of an acknowledged record. -/
def Placement.spot (m : Placement) : TopicPartition × Nat := (⟨m.topic, m.partition⟩, m.offset)

namespace Scene

variable {σ : Scene} {a : Act}

theorem Admits.split {P : Scene → Act → Prop} : ∀ {as bs : List Act} {σ : Scene},
    σ.Admits P (as ++ bs) → σ.Admits P as ∧ (σ.run as).Admits P bs
  | [], _, _, h => ⟨trivial, h⟩
  | _ :: _, _, _, h => ⟨⟨h.1, h.2.split.1⟩, h.2.split.2⟩

theorem event?_ne (σ : Scene) (a : Act) : σ.event? a ≠ some .abandoned := by
  cases a with
  | hear side => cases side <;> simp only [event?] <;> split <;> simp
  | _ => simp [event?]

/-- What is appended for the worker is in its cargo. -/
theorem appended_cargo {r : Receipt} (h : r ∈ σ.appended a) :
    r.key ∈ σ.cargo.map Freight.key := by
  obtain ⟨now, lost, q, w, -, -, hw, hr⟩ := of_mem_appended h
  rw [cargo_of_worker (w := w) hw]
  exact (w.landed_cargo _).subset (List.mem_map_of_mem hr)

theorem landed_cargo {r : Receipt} (h : r ∈ σ.landed) : r.key ∈ σ.cargo.map Freight.key := by
  unfold landed at h
  split at h
  · rename_i w hw
    rw [cargo_of_worker hw]
    exact (w.landed_cargo _).subset (List.mem_map_of_mem h)
  · exact absurd h List.not_mem_nil

/-- What an act appends takes each place once. -/
theorem nodup_appended (σ : Scene) (a : Act) : ((σ.appended a).map Receipt.spot).Nodup := by
  unfold appended
  split
  · split
    · rename_i w _ _
      obtain ⟨p, base, loads, hland⟩ := w.landed_receipts _
      rw [hland]
      exact nodup_receipts p loads base
    · exact List.nodup_nil
  · exact List.nodup_nil

/-- Once the worker has heard an answer, nothing is in flight. -/
theorem landed_hear (σ : Scene) : (σ.act (.hear .work)).landed = [] := by
  have unanswered : ∀ {σ : Scene}, (∀ answer, σ.work ≠ .replied answer) → σ.landed = [] := by
    intro σ h
    unfold landed
    split
    · unfold Worker.landed
      split
      · rename_i hl
        exact absurd hl (h _)
      · rfl
    · rfl
  have asks : ∀ (qs : List Request) {line : Line}, (∀ answer, line ≠ .replied answer) →
      ∀ answer, qs.foldl (fun _ q => Line.sent q) line ≠ .replied answer := by
    intro qs
    induction qs with
    | nil => exact fun h => h
    | cons q qs ih => exact fun _ => ih (by simp)
  apply unanswered
  intro answer
  simp only [act]
  split
  · rename_i reply _
    simp only [perform, Session.step, Session.deliver]
    cases σ.session.worker with
    | none => simp
    | some w =>
      rw [foldl_deeds]
      exact asks _ (by simp) answer
  · rename_i hno
    exact hno answer

/-- The log has the record of a send at the place of an acknowledgment, under
the session's identity. -/
def Stores (σ : Scene) (x : Sent) (m : Placement) : Prop :=
  ∃ id, σ.session.identity = some id ∧ σ.chronicle.broker.entryAt m.spot.1 m.offset =
    some (.data m.offset (some id.producer) (x.draft.record x.present))

theorem Kept.stores {r : Receipt} (h : σ.Kept r) {x : Sent}
    (hx : x.draft.record x.present = r.record) : σ.Stores x r.ack.2 := by
  obtain ⟨id, hid, hentry⟩ := h
  refine ⟨id, hid, ?_⟩
  rw [hx]
  exact hentry

end Scene

namespace History

variable {h : History} {a : Act}

/-! ### The invariant -/

/-- What every act keeps that loses no answer for good. -/
structure Sound (h : History) : Prop where
  coupled : h.scene.Coupled
  agrees : h.scene.Agrees h.book
  accounted : Accounted h.scene.session h.book
  chronicle : h.scene.chronicle.Accounted
  delivered : h.scene.Delivered
  /-- Every record that was appended is of an accepted send. -/
  known : ∀ r ∈ h.entered, r.key ∈ h.book.accepted.map Sent.key
  /-- A send has failed for certain, or its record was appended, or it cannot
  have been. -/
  tickets : (definites h.book.completed ++ (h.entered.map Receipt.ticket ++ h.scene.unlanded)).Subperm
    (h.book.accepted.map (·.ticket))
  /-- What is acknowledged was appended, and so was what is about to be. -/
  told : acknowledged h.book.completed ⊆ h.entered.map Receipt.ack
  landed : h.scene.landed ⊆ h.entered

theorem sound_start (broker : BrokerConfig) (config : SessionConfig) :
    (start broker config).Sound where
  coupled := Scene.coupled_start broker config
  agrees := ⟨rfl, List.Subset.refl _⟩
  accounted := .anew broker config
  chronicle := Chronicle.accounted_start broker
  delivered := Scene.delivered_start broker config
  known := fun _ hr => absurd hr List.not_mem_nil
  tickets := List.nil_subperm
  told := List.nil_subset _
  landed := List.nil_subset _

/-- The cargo of the worker is of accepted sends. -/
theorem Sound.accepted (hs : h.Sound) {r : Receipt} (hr : r.key ∈ h.scene.cargo.map Freight.key) :
    r.key ∈ h.book.accepted.map Sent.key := by
  obtain ⟨done, hdone⟩ := hs.delivered
  have hsends : r.key ∈ h.scene.chapter.sends.map Sent.key :=
    hdone.sends.subset (List.mem_append_right _ hr)
  exact List.map_subset _ hs.agrees.sends hsends

/-- A record with the key of a send is that of the send. -/
theorem sent_of_key {xs : List Sent} {r : Receipt} (h : r.key ∈ xs.map Sent.key) :
    ∃ x ∈ xs, x.ticket = r.ticket ∧ x.draft.topic = r.partition.topic ∧
      x.draft.record x.present = r.record := by
  obtain ⟨x, hx, hkey⟩ := List.mem_map.mp h
  obtain ⟨htopic, hrest⟩ := Prod.mk.inj hkey
  obtain ⟨hrecord, hticket⟩ := Prod.mk.inj hrest
  exact ⟨x, hx, hticket, htopic, hrecord⟩

/-- What is now known was open before. -/
theorem subperm_onward {done more entered new open' open'' sends accepted : List Ticket}
    (h : (done ++ (entered ++ open')).Subperm sends)
    (h' : (more ++ (new ++ open'')).Subperm (open' ++ accepted)) :
    (done ++ more ++ (entered ++ new ++ open'')).Subperm (sends ++ accepted) := by
  have hperm : (done ++ more ++ (entered ++ new ++ open'')).Perm
      (done ++ entered ++ (more ++ (new ++ open''))) := by
    rw [List.append_assoc entered, ← List.append_assoc _ more]
    exact Accounted.perm_forward _ _ _ _
  have hopen : (done ++ entered ++ (more ++ (new ++ open''))).Subperm
      (done ++ (entered ++ open') ++ accepted) := by
    rw [← List.append_assoc done, List.append_assoc _ open']
    exact (List.subperm_append_left _).mpr h'
  exact hperm.subperm.trans (hopen.trans ((List.subperm_append_right _).mpr h))

/-- What is acknowledged is in flight until the worker hears of it. -/
theorem acknowledges_landed {σ : Scene} {x : Ticket × Placement} (hx : x ∈ σ.acknowledges a) :
    a = .hear .work ∧ x ∈ σ.landed.map Receipt.ack := by
  unfold Scene.acknowledges at hx
  split at hx
  · exact ⟨rfl, hx⟩
  · exact absurd hx List.not_mem_nil

/-- **Every such act keeps the history sound.** -/
theorem Sound.act (hs : h.Sound) (hp : h.scene.Transient a) : (h.act a).Sound := by
  obtain ⟨hstep, hcoupled⟩ := hs.coupled.act a
  obtain ⟨new, done, htells⟩ := Scene.tells hs.coupled hs.accounted hs.agrees hp
  have hnew : (h.act a).book.accepted = h.book.accepted ++ new := htells.accepted
  have hdone : (h.act a).book.completed = h.book.completed ++ done := htells.completed
  have hentered : (h.act a).entered = h.entered ++ h.scene.appended a := rfl
  have hτ : (h.act a).scene = h.scene.act a := rfl
  refine ⟨hcoupled, Scene.agrees_act hs.agrees a, ?_, Scene.accounted_act hs.chronicle a,
    hs.delivered.step hs.coupled hcoupled hstep, fun r hr => ?_, ?_, fun x hx => ?_, fun r hr => ?_⟩
  · show Accounted (h.scene.act a).session _
    rw [Scene.session_act]
    simp only [History.act]
    cases he : h.scene.event? a with
    | none => exact hs.accounted
    | some e => exact hs.accounted.step fun hne => Scene.event?_ne _ a (he.trans (congrArg some hne))
  · rw [hnew, List.map_append, List.mem_append]
    left
    rcases List.mem_append.mp hr with hr | hr
    · exact hs.known r hr
    · exact hs.accepted (Scene.appended_cargo hr)
  · rw [hnew, hdone, hentered, hτ, definites_append, List.map_append, List.map_append]
    exact subperm_onward hs.tickets htells.tickets
  · rw [hdone, acknowledged_append, htells.acks] at hx
    rw [hentered, List.map_append]
    apply List.mem_append_left
    rcases List.mem_append.mp hx with hx | hx
    · exact hs.told hx
    · exact List.map_subset _ hs.landed (acknowledges_landed hx).2
  · rw [hentered]
    rcases Scene.landed_act hs.coupled hr with hr | ⟨now, -, happ⟩
    · exact List.mem_append_left _ (hs.landed hr)
    · exact List.mem_append_right _ happ

theorem Sound.run (hs : h.Sound) : ∀ {as : List Act}, h.scene.Admits Scene.Transient as →
    (h.run as).Sound := by
  intro as
  induction as generalizing h with
  | nil => exact fun _ => hs
  | cons a as ih => exact fun hadm => ih (hs.act hadm.1) hadm.2

/-- A send that was accepted once was appended once at most, and not at all if
it has failed for certain. -/
theorem Sound.once (hs : h.Sound) (hd : (h.book.accepted.map (·.ticket)).Nodup) :
    (h.entered.map Receipt.ticket).Nodup ∧
      ∀ t ∈ definites h.book.completed, t ∉ h.entered.map Receipt.ticket := by
  obtain ⟨xs, hperm, hsub⟩ := hs.tickets
  have hnodup := hperm.nodup_iff.mp (hd.sublist hsub)
  obtain ⟨-, hrest, hdisjoint⟩ := List.nodup_append.mp hnodup
  obtain ⟨hentered, -, -⟩ := List.nodup_append.mp hrest
  exact ⟨hentered, fun t ht hin => hdisjoint t ht t (List.mem_append_left _ hin) rfl⟩

/-- **What is acknowledged was in flight**, and is the record of an accepted
send. -/
theorem Sound.acknowledged (hs : h.Sound) (hp : h.scene.Transient a)
    {done : List (Ticket × Completion)}
    (hdone : (h.act a).book.completed = h.book.completed ++ done) {t : Ticket} {m : Placement}
    (ht : (t, .ok m) ∈ done) : a = .hear .work ∧ ∃ r ∈ h.scene.landed, r.ack = (t, m) ∧
      ∃ x ∈ (h.act a).book.accepted, x.ticket = t ∧ x.draft.topic = m.topic ∧
        x.draft.record x.present = r.record := by
  obtain ⟨new, done', htells⟩ := Scene.tells hs.coupled hs.accounted hs.agrees hp
  have hnew : (h.act a).book.accepted = h.book.accepted ++ new := htells.accepted
  obtain rfl : done = done' := List.append_cancel_left (hdone.symm.trans htells.completed)
  have hack := htells.acks ▸ mem_acknowledged ht
  obtain ⟨rfl, hland⟩ := acknowledges_landed hack
  obtain ⟨r, hr, hrm⟩ := List.mem_map.mp hland
  obtain ⟨x, hx, hticket, htopic, hrecord⟩ := sent_of_key (hs.accepted (Scene.landed_cargo hr))
  obtain ⟨rfl, rfl⟩ := Prod.mk.inj hrm
  exact ⟨rfl, r, hr, rfl, x, hnew ▸ List.mem_append_left _ hx, hticket, htopic, hrecord⟩

/-- **What is appended for a send the log has then**, and until the topic is
deleted. -/
theorem Sound.stores (hs : h.Sound) {r : Receipt} (hr : r ∈ h.scene.appended a) {x : Sent}
    (hx : x.draft.record x.present = r.record) {as : List Act}
    (hno : .others (.deleteTopic r.partition.topic) ∉ as) :
    ((h.act a).run as).scene.Stores x r.ack.2 := by
  have hkept : (h.act a).scene.Kept r := (Scene.kept_appended hs.coupled hs.chronicle hr).1
  rw [run_scene]
  exact (hkept.run (hs.coupled.act a).2 hno).stores hx

/-! ### Places -/

/-- The records `new` were appended since `h₀`, and those of the topic are at
different places, each of them taken. -/
structure Apart (topic : String) (h₀ h : History) (new : List Receipt) : Prop where
  entered : h.entered = h₀.entered ++ new
  nodup : ((new.filter (·.partition.topic = topic)).map Receipt.spot).Nodup
  taken : ∀ r ∈ new, r.partition.topic = topic →
    ∃ x, h.scene.chronicle.broker.entryAt r.partition r.offset = some x

/-- **As long as the topic is not deleted, the places stay different.** -/
theorem Apart.act {topic : String} {h₀ : History} {new : List Receipt} (hap : Apart topic h₀ h new)
    (hc : h.scene.Coupled) (hd : h.scene.chronicle.Accounted)
    (hno : a ≠ .others (.deleteTopic topic)) :
    Apart topic h₀ (h.act a) (new ++ h.scene.appended a) := by
  refine ⟨?_, ?_, fun r hr ht => ?_⟩
  · rw [show (h.act a).entered = h.entered ++ h.scene.appended a from rfl, hap.entered,
      List.append_assoc]
  · rw [List.filter_append, List.map_append]
    refine List.nodup_append.mpr ⟨hap.nodup,
      (h.scene.nodup_appended a).sublist (List.filter_sublist.map _), ?_⟩
    rintro s hold s' hnew rfl
    obtain ⟨r, hr, rfl⟩ := List.mem_map.mp hold
    obtain ⟨r', hr', hspot⟩ := List.mem_map.mp hnew
    obtain ⟨hmem, ht⟩ := List.mem_filter.mp hr
    obtain ⟨hpart, hoff⟩ := Prod.mk.inj hspot
    -- a new record comes after all that is there
    obtain ⟨x, hx⟩ := hap.taken r hmem (of_decide_eq_true ht)
    rw [← hpart] at hx
    have hlt := (Scene.kept_appended hc hd (List.mem_filter.mp hr').1).2 r.offset x hx
    omega
  · rcases List.mem_append.mp hr with hr | hr
    · obtain ⟨x, hx⟩ := hap.taken r hr ht
      exact ⟨x, Scene.entryAt_act hx (ht ▸ hno)⟩
    · obtain ⟨id, -, hentry⟩ := (Scene.kept_appended hc hd hr).1
      exact ⟨_, hentry⟩

theorem Apart.run {topic : String} {h₀ : History} : ∀ {as : List Act} {h : History}
    {new : List Receipt}, Apart topic h₀ h new → h.scene.Coupled → h.scene.chronicle.Accounted →
    .others (.deleteTopic topic) ∉ as → ∃ new', Apart topic h₀ (h.run as) new'
  | [], _, new, hap, _, _, _ => ⟨new, hap⟩
  | a :: as, _, _, hap, hc, hd, hno => by
    simp only [List.mem_cons, not_or] at hno
    exact (hap.act hc hd fun he => hno.1 he.symm).run (hc.act a).2 (Scene.accounted_act hd a) hno.2

theorem Sound.apart (hs : h.Sound) {topic : String} {ms : List Act} {new : List Receipt}
    (hno : .others (.deleteTopic topic) ∉ ms) (hnew : (h.run ms).entered = h.entered ++ new) :
    Apart topic h (h.run ms) new := by
  have hstill : Apart topic h h [] :=
    ⟨(List.append_nil _).symm, List.nodup_nil, fun r hr => absurd hr List.not_mem_nil⟩
  obtain ⟨new', hap⟩ := hstill.run hs.coupled hs.chronicle hno
  obtain rfl : new = new' := List.append_cancel_left (hnew.symm.trans hap.entered)
  exact hap

/-- Records that were appended while the topic was not deleted are at different
places. -/
theorem Apart.spot_ne {h₀ : History} {new : List Receipt} {r r' : Receipt}
    (hap : Apart r.partition.topic h₀ h new) (hr : r ∈ new) (hr' : r' ∈ new) (hne : r ≠ r') :
    r.spot ≠ r'.spot := by
  intro hspot
  have htopic : r'.partition.topic = r.partition.topic :=
    congrArg TopicPartition.topic (Prod.mk.inj hspot).1.symm
  exact hne (List.inj_on_of_nodup_map hap.nodup (List.mem_filter.mpr ⟨hr, decide_eq_true rfl⟩)
    (List.mem_filter.mpr ⟨hr', decide_eq_true htopic⟩) hspot)

/-! ### Runs -/

/-- What a run says of the logs. -/
structure Truthful (h : History) (as : List Act) : Prop where
  /-- The data entries that an act of the session adds to a partition are those
  of the records that it appends for the worker. -/
  entries : ∀ fs a gs, as = fs ++ a :: gs → (∀ op, a ≠ .others op) → ∀ p,
    (h.run (fs ++ [a])).scene.chronicle.broker.data p =
      (h.run fs).scene.chronicle.broker.data p ++
        ((((h.run fs).scene.appended a).filter (·.partition = p)).map
          (·.entry (h.run fs).scene.session.identity))
  /-- Each of these records is of an accepted send. -/
  sent : ∀ r ∈ (h.run as).entered, ∃ x ∈ (h.run as).book.accepted, x.ticket = r.ticket ∧
    x.draft.topic = r.partition.topic ∧ x.draft.record x.present = r.record
  /-- No send has two entries, and a send that has failed for certain has none. -/
  tickets : (definites (h.run as).book.completed ++ (h.run as).entered.map Receipt.ticket).Subperm
    ((h.run as).book.accepted.map (·.ticket))
  once : ((h.run as).book.accepted.map (·.ticket)).Nodup →
    ((h.run as).entered.map Receipt.ticket).Nodup
  definite : ((h.run as).book.accepted.map (·.ticket)).Nodup →
    ∀ t e, (t, .error e) ∈ (h.run as).book.completed → (∀ err, e ≠ .transport err) →
      e ≠ .abandoned → ∀ r ∈ (h.run as).entered, r.ticket ≠ t
  /-- The record of a send that is acknowledged was appended before, at the place
  that the send is told, and is there when the send completes unless the topic
  was deleted in between. -/
  acknowledged : ∀ fs a gs done t m, as = fs ++ a :: gs →
    (h.run (fs ++ [a])).book.completed = (h.run fs).book.completed ++ done → (t, .ok m) ∈ done →
    ∃ x ∈ (h.run (fs ++ [a])).book.accepted, x.ticket = t ∧ x.draft.topic = m.topic ∧
      m.time = (x.draft.record x.present).time ∧
      ∃ before now since, fs = before ++ .reach .work now none :: since ∧
        (t, m) ∈ ((h.run before).scene.appended (.reach .work now none)).map Receipt.ack ∧
        (h.run (before ++ [.reach .work now none])).scene.Stores x m ∧
        (.others (.deleteTopic m.topic) ∉ since → (h.run (fs ++ [a])).scene.Stores x m)
  /-- Every acknowledgment is that of a record that was appended. -/
  told : ∀ t m, (t, .ok m) ∈ (h.run as).book.completed →
    (t, m) ∈ (h.run as).entered.map Receipt.ack
  /-- Sends whose records were appended while the topic was not deleted are told
  different places. -/
  apart : ∀ fs ms gs new t m t' m', as = fs ++ (ms ++ gs) →
    .others (.deleteTopic m.topic) ∉ ms →
    (h.run (fs ++ ms)).entered = (h.run fs).entered ++ new →
    (t, m) ∈ new.map Receipt.ack → (t', m') ∈ new.map Receipt.ack → t ≠ t' → m.spot ≠ m'.spot

/-- **Acknowledgments are truthful, and a send is appended at most once.** -/
theorem acknowledges_truthfully {broker : BrokerConfig} {config : SessionConfig} {as : List Act}
    (hadm : (Scene.start broker config).Admits Scene.Transient as) :
    (start broker config).Truthful as := by
  have hstart := sound_start broker config
  have hsound : ((start broker config).run as).Sound := hstart.run hadm
  -- the history where an act of the run is due
  have due : ∀ {fs gs : List Act}, as = fs ++ gs → ((start broker config).run fs).Sound ∧
      ((start broker config).run fs).scene.Admits Scene.Transient gs := by
    rintro fs gs rfl
    obtain ⟨hfs, hgs⟩ := hadm.split
    exact ⟨hstart.run hfs, by rwa [run_scene]⟩
  refine ⟨fun fs a gs hsplit ho p => ?_, fun r hr => ?_, ?_, fun hd => (hsound.once hd).1,
    fun hd t e hmem htransport habandoned r hr hrt => ?_,
    fun fs a gs done t m hsplit hdone hmem => ?_,
    fun t m hmem => hsound.told (mem_acknowledged hmem),
    fun fs ms gs new t m t' m' hsplit hno hentered ht ht' hne => ?_⟩
  · rw [run_append]
    exact Scene.data_act (due hsplit).1.coupled ho p
  · exact sent_of_key (hsound.known r hr)
  · refine List.Subperm.trans ?_ hsound.tickets
    exact ((List.sublist_append_left _ _).append_left _).subperm
  · have hdef : e.isDefinite = true := by
      cases e with
      | transport err => exact absurd rfl (htransport err)
      | abandoned => exact absurd rfl habandoned
      | _ => rfl
    exact (hsound.once hd).2 t (mem_definites hmem hdef) (hrt ▸ List.mem_map_of_mem hr)
  · obtain ⟨hs, hgs⟩ := due hsplit
    rw [run_append] at hdone ⊢
    obtain ⟨rfl, r, hr, hack, x, hx, hticket, htopic, hrecord⟩ :=
      hs.acknowledged hgs.1 hdone hmem
    obtain ⟨rfl, rfl⟩ := Prod.mk.inj hack
    refine ⟨x, hx, hticket, htopic, congrArg Record.time hrecord.symm, ?_⟩
    rw [run_scene] at hr
    rcases Scene.landed_run hstart.coupled hr with hr | ⟨before, now, since, rfl, happ⟩
    · exact absurd hr List.not_mem_nil
    rw [← run_scene] at happ
    have hbefore : as = before ++ (.reach .work now none :: since ++ .hear .work :: gs) := by
      rw [hsplit, List.append_assoc]
    have hb := (due hbefore).1
    refine ⟨before, now, since, rfl, List.mem_map_of_mem happ, ?_, fun hno => ?_⟩
    · rw [run_append]
      exact hb.stores happ hrecord List.not_mem_nil
    · rw [← run_append, List.append_assoc, run_append]
      exact hb.stores happ hrecord (by simpa using hno)
  · obtain ⟨r, hr, hack⟩ := List.mem_map.mp ht
    obtain ⟨r', hr', hack'⟩ := List.mem_map.mp ht'
    obtain ⟨rfl, rfl⟩ := Prod.mk.inj hack
    obtain ⟨rfl, rfl⟩ := Prod.mk.inj hack'
    rw [run_append] at hentered
    exact ((due hsplit).1.apart hno hentered).spot_ne hr hr' fun he =>
      hne (congrArg Receipt.ticket he)

/-- Three records are sent: one has no partition, the answer to the append of
one is lost, and one is acknowledged. -/
def oneLost : List Act := [
  .others (.createTopic "T" 2),
  .call .init, .reach .own .zero none, .hear .own,
  .call .begin, .round 1,
  .call (.send (Scene.draftFor 0) ⟨0, .future⟩ 0), .reach .own .zero none, .hear .own,
  .call (.send (Scene.draftFor 1) ⟨1, .callback⟩ 0),
  .call (.send (Scene.draftFor 7) ⟨2, .future⟩ 0),
  .round 3, .reach .work .zero none, .hear .work,
  .reach .work .zero (some .connectionClosed), .hear .work,
  .reach .work .zero none, .hear .work]

theorem admits_oneLost : (Scene.start .default Scene.settings).Admits Scene.Transient oneLost := by
  simp [oneLost, Scene.Admits, Scene.Transient, BrokerError.isRetriable]

theorem acknowledges_truthfully_oneLost :
    (Scene.start .default Scene.settings).Admits Scene.Transient oneLost ∧
    (start .default Scene.settings).Truthful oneLost ∧
    ((start .default Scene.settings).run oneLost).book.completed = [
      (⟨2, .future⟩, .error (.unknownPartition "T" 7)),
      (⟨0, .future⟩, .error (.transport .connectionClosed)),
      (⟨1, .callback⟩, .ok ⟨"T", 1, 0, 1⟩)] ∧
    ((start .default Scene.settings).run oneLost).entered.map (fun r => (r.ticket, r.spot)) = [
      (⟨0, .future⟩, (⟨"T", 0⟩, 0)), (⟨1, .callback⟩, (⟨"T", 1⟩, 0))] :=
  ⟨admits_oneLost, acknowledges_truthfully admits_oneLost, by decide +kernel, by decide +kernel⟩

/-- A record is appended, and before the worker hears of it somebody deletes the
topic. -/
def deletedUnheard : List Act := [
  .others (.createTopic "T" 1), .others (.createTopic "U" 1),
  .call .init, .reach .own .zero none, .hear .own,
  .call .begin, .round 1,
  .call (.send (Scene.draftFor 0) ⟨0, .future⟩ 0), .reach .own .zero none, .hear .own,
  .round 1, .reach .work .zero none, .hear .work, .reach .work .zero none,
  .others (.deleteTopic "T")]

/-- The topic is made anew, and a record is sent to it and one to another
topic. -/
def sentAgain : List Act := [
  .others (.createTopic "T" 1),
  .call (.send (Scene.draftFor 0) ⟨1, .future⟩ 0),
  .call (.send { Scene.draftFor 0 with topic := "U" } ⟨2, .future⟩ 0),
  .reach .own .zero none, .hear .own,
  .round 2, .reach .work .zero none, .hear .work,
  .reach .work .zero none, .hear .work, .reach .work .zero none, .hear .work]

/-- **A send completes as acknowledged, and no record is at its place then.** The
place is told to a second send although the topic is not deleted between the two
completions, and offset 0 of a partition 0 to a third one, in another topic. -/
theorem unkept_deletedUnheard :
    let before := (start .default Scene.settings).run deletedUnheard
    let completed := before.act (.hear .work)
    (Scene.start .default Scene.settings).Admits Scene.Transient
      (deletedUnheard ++ .hear .work :: sentAgain) ∧
    before.book.completed = [] ∧
    completed.book.completed = [(⟨0, .future⟩, .ok ⟨"T", 0, 0, 1⟩)] ∧
    completed.scene.chronicle.broker.entryAt ⟨"T", 0⟩ 0 = none ∧
    (∀ topic, .others (.deleteTopic topic) ∉ sentAgain) ∧
    (completed.run sentAgain).book.completed = [
      (⟨0, .future⟩, .ok ⟨"T", 0, 0, 1⟩), (⟨1, .future⟩, .ok ⟨"T", 0, 0, 1⟩),
      (⟨2, .future⟩, .ok ⟨"U", 0, 0, 1⟩)] := by
  refine ⟨?_, by decide +kernel, by decide +kernel, by decide +kernel, ?_, by decide +kernel⟩
  · simp [deletedUnheard, sentAgain, Scene.Admits, Scene.Transient]
  · simp [sentAgain]

end History
end FencedLog
