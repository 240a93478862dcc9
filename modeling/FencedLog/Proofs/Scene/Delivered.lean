/-
# What is acknowledged was appended

An acknowledgment is the worker's word that the broker has appended a record.
In every scene the acknowledged records, followed by those whose append has
been answered and not heard of, were appended in this order, once each; and
together with what the worker still has to append they are among the records
that were sent, at most once each (`Delivered`).

Key definitions: `Receipt`, `Worker.landed`, `Delivered`.
Key theorem: `Scene.Delivered.step`.
-/
import FencedLog.Proofs.Scene.Steps

namespace FencedLog

/-! ### Receipts -/

/-- A record that was appended, and the ticket of its send. -/
structure Receipt where
  partition : TopicPartition
  offset : Nat
  record : Record
  ticket : Ticket

namespace Receipt

def ack (r : Receipt) : Ticket × Placement :=
  (r.ticket, ⟨r.partition.topic, r.partition.partition, r.offset, r.record.time⟩)

def place (r : Receipt) : TopicPartition × Nat × Record := (r.partition, r.offset, r.record)

def key (r : Receipt) : String × Record × Ticket := (r.partition.topic, r.record, r.ticket)

end Receipt

def Writ.place (x : Writ) : TopicPartition × Nat × Record := (x.partition, x.offset, x.record)

/-- What a send is known by: its topic, its record and its ticket. -/
def Sent.key (s : Sent) : String × Record × Ticket := (s.draft.topic, s.draft.record s.present, s.ticket)

def Freight.key (x : Freight) : String × Record × Ticket := (x.1.topic, x.2.1, x.2.2)

/-- The receipts of loads that were appended from `base` on. -/
def receipts (p : TopicPartition) : Nat → List Load → List Receipt
  | _, [] => []
  | base, (r, t) :: loads => ⟨p, base, r, t⟩ :: receipts p (base + 1) loads

theorem acks_receipts (p : TopicPartition) : ∀ (loads : List Load) (base : Nat),
    (receipts p base loads).map Receipt.ack = placements p base loads
  | [], _ => rfl
  | _ :: loads, base => congrArg (_ :: ·) (acks_receipts p loads (base + 1))

theorem places_receipts (p : TopicPartition) (txn : Option Txn) : ∀ (loads : List Load) (base : Nat),
    (receipts p base loads).map Receipt.place =
      (written p txn base (loads.map (·.1))).map Writ.place
  | [], _ => rfl
  | _ :: loads, base => congrArg (_ :: ·) (places_receipts p txn loads (base + 1))

theorem keys_receipts (p : TopicPartition) : ∀ (loads : List Load) (base : Nat),
    (receipts p base loads).map Receipt.key = (loads.map (p, ·)).map Freight.key
  | [], _ => rfl
  | _ :: loads, base => congrArg (_ :: ·) (keys_receipts p loads (base + 1))

/-- The records of the worker's batch whose append is about to be heard of. -/
def Worker.landed (w : Worker) : Line → List Receipt
  | .replied (.ok (.appended base)) =>
    match w.phase with
    | .appending batch _ _ => receipts batch.partition base batch.items
    | .idle | .enrolling .. | .stopped => []
  | _ => []

theorem landed_of_phase {w : Worker} (h : ∀ batch rest barrier, w.phase ≠ .appending batch rest barrier)
    (line : Line) : w.landed line = [] := by
  unfold Worker.landed
  split
  · split
    · rename_i hp
      exact absurd hp (h _ _ _)
    all_goals rfl
  · rfl

/-! ### The invariant -/

/-- The acknowledged records `done`, those that have landed, and the cargo of
the worker, against what was sent and appended. -/
structure Delivered (chapter : Chapter) (landed : List Receipt) (cargo : List Freight)
    (done : List Receipt) : Prop where
  acks : chapter.acks = done.map Receipt.ack
  writs : ((done ++ landed).map Receipt.place).Sublist (chapter.writs.map Writ.place)
  sends : (done.map Receipt.key ++ cargo.map Freight.key).Subperm (chapter.sends.map Sent.key)

theorem subperm_map {α β : Type} {xs ys : List α} (f : α → β) (h : xs.Subperm ys) :
    (xs.map f).Subperm (ys.map f) := by
  obtain ⟨zs, hp, hs⟩ := h
  exact ⟨zs.map f, hp.map f, hs.map f⟩

namespace Delivered

variable {chapter : Chapter} {landed landed' done : List Receipt} {cargo cargo' : List Freight}

/-- Less is in flight, and in the cargo. -/
theorem mono (h : Delivered chapter landed cargo done) (hl : landed'.Sublist landed)
    (hc : cargo'.Subperm cargo) : Delivered chapter landed' cargo' done where
  acks := h.acks
  writs := (((List.Sublist.refl done).append hl).map _).trans h.writs
  sends := (((List.subperm_append_left _).mpr (subperm_map _ hc))).trans h.sends

/-- Records have been appended, and may be heard of. -/
theorem land (h : Delivered chapter [] cargo done) {more : List Writ}
    (hl : (landed.map Receipt.place).Sublist (more.map Writ.place)) :
    Delivered { chapter with writs := chapter.writs ++ more } landed cargo done where
  acks := h.acks
  writs := by
    rw [List.map_append, List.map_append]
    have hdone := h.writs
    rw [List.append_nil] at hdone
    exact hdone.append hl
  sends := h.sends

/-- What has landed is acknowledged. -/
theorem acknowledge (h : Delivered chapter landed (cargo ++ cargo') done)
    (hk : landed.map Receipt.key = cargo.map Freight.key) :
    Delivered { chapter with acks := chapter.acks ++ landed.map Receipt.ack } [] cargo'
      (done ++ landed) where
  acks := by rw [List.map_append, h.acks]
  writs := by
    rw [List.append_nil]
    exact h.writs
  sends := by
    rw [List.map_append, hk, List.append_assoc, ← List.map_append]
    exact h.sends

end Delivered

namespace Scene

/-- The records of the worker that are in flight, if there is a worker. -/
def landed (σ : Scene) : List Receipt :=
  match σ.session.stance.worker with
  | some w => w.landed σ.work
  | none => []

def cargo (σ : Scene) : List Freight :=
  match σ.session.stance.worker with
  | some w => w.cargo
  | none => []

def Delivered (σ : Scene) : Prop :=
  ∃ done, FencedLog.Delivered σ.chapter σ.landed σ.cargo done

theorem delivered_start (broker : BrokerConfig) (config : SessionConfig) :
    (start broker config).Delivered :=
  ⟨[], rfl, List.Sublist.refl _, List.nil_subperm⟩

variable {σ τ : Scene} {a : Act}

theorem landed_of_worker {w : Worker} (hw : σ.session.stance.worker = some w) :
    σ.landed = w.landed σ.work := by rw [landed, hw]

theorem cargo_of_worker {w : Worker} (hw : σ.session.stance.worker = some w) :
    σ.cargo = w.cargo := by rw [cargo, hw]

/-- A worker that is the same but for a flush carries the same. -/
theorem carries_alike {w w' : Worker} (h : w.Alike w') (line : Line) :
    w'.landed line = w.landed line ∧ w'.cargo = w.cargo := by
  obtain ⟨tail, flushed, ht, rfl⟩ := h
  refine ⟨rfl, ?_⟩
  rcases ht with rfl | rfl <;> simp [Worker.cargo, pendings_append, pendings]

/-- What a worker has queued is in its cargo, if it has a partition. -/
theorem cargo_queue_send (w : Worker) (p : Pending) :
    (Stance.queue w (.send p)).cargo = w.cargo ++ routed [p] := by
  simp [Worker.cargo, Stance.queue, pendings_append, pendings, routed_append]

theorem keys_routed {s : Sent} {p : Pending} (h : s.Makes p) :
    ((routed [p]).map Freight.key).Subperm [s.key] := by
  obtain ⟨target, record, ticket⟩ := p
  obtain ⟨ht, hr, htopic⟩ := h
  cases target with
  | error e => exact List.nil_subperm
  | ok target =>
    have hkey : (routed [⟨.ok target, record, ticket⟩]).map Freight.key = [s.key] := by
      simp only [routed, List.map_cons, List.map_nil, Freight.key, Sent.key]
      rw [htopic target rfl, ← ht, ← hr]
    rw [hkey]

/-- What the worker has after a move, it had before or has acknowledged. -/
theorem carries_moved {w w₀ w' : Worker} {work : Line} {barrier : Option Barrier}
    {loads : List Freight} {acked : List (Ticket × Placement)} {err : Option BrokerError}
    {q : Option Request} (hs : Source w work w₀ barrier loads acked err)
    (hn : w₀.Next barrier loads w' q) :
    w'.landed (asking q) = [] ∧ ∃ taken : List Freight, (taken ++ w'.cargo).Subperm w.cargo ∧
      (w.landed work).map Receipt.ack = acked ∧
      (w.landed work).map Receipt.key = taken.map Freight.key := by
  have hline : w'.landed (asking q) = [] := by
    cases q <;> rfl
  have hcargo : w'.cargo.Subperm (loads ++ routed (pendings w₀.queue)) := by
    cases hn with
    | reach =>
      have hreached : (w₀.reached barrier).cargo = routed (pendings w₀.queue) := by
        cases barrier with
        | none => rfl
        | some b => cases b <;> rfl
      rw [hreached]
      exact (List.sublist_append_right _ _).subperm
    | enroll fresh batches _ _ _ hl => exact (List.subperm_append_right _).mpr hl
    | append batch rest _ hl => exact (List.subperm_append_right _).mpr hl
  refine ⟨hline, ?_⟩
  cases hs with
  | round pending barrier rest hp hq =>
    refine ⟨[], ?_, ?_, ?_⟩
    · have hw : w.cargo = routed pending ++ routed (pendings rest) := by
        cases barrier <;>
          simp [Worker.cargo, hp, hq, Phase.loads, pendings_append, pendings, routed_append]
      rw [hw]
      exact hcargo
    · rw [landed_of_phase (by simp [hp])]
      rfl
    · rw [landed_of_phase (by simp [hp])]
      rfl
  | enrolled fresh batches barrier hp hl =>
    refine ⟨[], ?_, ?_, ?_⟩
    · rw [show w.cargo = loadsOf batches ++ routed (pendings w.queue) by
        rw [Worker.cargo, hp, Phase.loads]]
      exact hcargo
    · rw [landed_of_phase (by simp [hp])]
      rfl
    · rw [landed_of_phase (by simp [hp])]
      rfl
  | appended batch rest barrier base hp hl =>
    have hland : w.landed work = receipts batch.partition base batch.items := by
      rw [hl, Worker.landed, hp]
    refine ⟨batch.loads, ?_, ?_, ?_⟩
    · rw [show w.cargo = batch.loads ++ (loadsOf rest ++ routed (pendings w.queue)) by
        rw [Worker.cargo, hp, Phase.loads, List.append_assoc]]
      exact (List.subperm_append_left _).mpr hcargo
    · rw [hland, acks_receipts]
    · rw [hland, keys_receipts]
      rfl
  | refused loads e hi hs hl hloads =>
    have hland : w.landed work = [] := by
      subst hl
      rfl
    refine ⟨[], ?_, ?_, ?_⟩
    · exact hcargo.trans ((List.subperm_append_right _).mpr hloads)
    · rw [hland]
      rfl
    · rw [hland]
      rfl

/-- The broker answers the worker: what it appends lands, or is not heard of. -/
theorem delivered_reachWork (h : σ.Delivered) (hc : σ.Coupled) (now : Span)
    (lost : Option BrokerError) {q : Request} (hq : σ.work = .sent q) :
    (σ.reachWork now lost q).Delivered := by
  obtain ⟨done, h⟩ := h
  obtain ⟨w, hw, -, hreq⟩ := hc.ordered hq
  refine ⟨done, ?_⟩
  rw [landed_of_worker hw, cargo_of_worker hw, hq, show w.landed (.sent q) = [] from rfl] at h
  have hw' : (σ.reachWork now lost q).session.stance.worker = some w := hw
  rw [landed_of_worker hw', cargo_of_worker hw']
  simp only [reachWork]
  rcases hreq with ⟨fresh, batches, barrier, hp, rfl⟩ | ⟨batch, rest, barrier, hp, rfl⟩
  · rw [landed_of_phase (by simp [hp])]
    rcases fits_enroll (fits_handle σ.chronicle.broker now (.enroll w.txid w.identity fresh)) with
      ha | ⟨e, ha⟩ <;> rw [ha] <;> exact ⟨h.acks, h.writs, h.sends⟩
  · rcases fits_append (fits_handle σ.chronicle.broker now
      (.append w.txid w.identity batch.partition batch.records)) with ⟨base, ha⟩ | ⟨e, ha⟩
    · rw [ha]
      apply h.land
      cases lost with
      | some e => exact List.nil_sublist _
      | none =>
        have hland : w.landed (reply (.ok (.appended base)) none) =
            receipts batch.partition base batch.items := by
          simp only [reply, Worker.landed, hp]
        rw [hland, places_receipts]
        exact List.Sublist.refl _
    · rw [ha, Chapter.note_error]
      cases lost <;> exact h

/-- The session goes on: a send may be added to the chapter, and what is in
flight stays so. -/
structure CarriesOn (σ τ : Scene) : Prop where
  acks : τ.chapter.acks = σ.chapter.acks
  writs : τ.chapter.writs = σ.chapter.writs
  landed : τ.landed = σ.landed
  sends : ∃ new more, τ.chapter.sends = σ.chapter.sends ++ new ∧ τ.cargo = σ.cargo ++ more ∧
    (more.map Freight.key).Subperm (new.map Sent.key)

theorem CarriesOn.same (hchap : τ.chapter = σ.chapter) (hl : τ.landed = σ.landed)
    (hcargo : τ.cargo = σ.cargo) : CarriesOn σ τ :=
  ⟨by rw [hchap], by rw [hchap], hl, [], [], by rw [hchap, List.append_nil],
    by rw [hcargo, List.append_nil], List.nil_subperm⟩

theorem CarriesOn.delivered (hon : CarriesOn σ τ) {done : List Receipt}
    (h : FencedLog.Delivered σ.chapter σ.landed σ.cargo done) :
    FencedLog.Delivered τ.chapter τ.landed τ.cargo done where
  acks := hon.acks.trans h.acks
  writs := by
    rw [hon.writs, hon.landed]
    exact h.writs
  sends := by
    obtain ⟨new, more, hsends, hcargo, hm⟩ := hon.sends
    rw [hsends, hcargo, List.map_append, List.map_append, ← List.append_assoc]
    exact h.sends.append hm

/-- An event of the session begins a chapter, or carries on. -/
theorem carries_turned (hc : σ.Coupled) (hτ : τ.Coupled) {e : Event}
    (ht : σ.Turned e τ.session τ) :
    CarriesOn σ τ ∨ (τ.chapter = .empty ∧ τ.landed = [] ∧ τ.cargo = []) := by
  obtain ⟨-, -, hwork, -, -, hstride⟩ := ht
  -- a worker that carries the same
  have alike : τ.session.stance.identity = σ.session.stance.identity →
      (∀ w', τ.session.stance.worker = some w' → ∃ w, σ.session.stance.worker = some w ∧
        w.Alike w') → τ.landed = σ.landed ∧ τ.cargo = σ.cargo := by
    intro hid hwk
    cases hw' : τ.session.stance.worker with
    | none =>
      have hw := hc.unmanned_of hτ hid hw'
      simp [landed, cargo, hw, hw']
    | some w' =>
      obtain ⟨w, hw, hal⟩ := hwk w' hw'
      rw [landed_of_worker hw, landed_of_worker hw', cargo_of_worker hw, cargo_of_worker hw', hwork]
      exact carries_alike hal σ.work
  have stays : τ.session.stance.identity = σ.session.stance.identity →
      τ.session.stance.worker = σ.session.stance.worker →
      τ.landed = σ.landed ∧ τ.cargo = σ.cargo := fun hid hwk =>
    alike hid fun w' hw' => ⟨w', hwk ▸ hw', .refl w'⟩
  generalize hv : τ.session.stance = v' at hstride
  cases hstride with
  | quiet hk hchap =>
    obtain ⟨hl, hcargo⟩ := alike (hv ▸ hk.identity) (hv ▸ hk.worker)
    exact Or.inl (.same hchap hl hcargo)
  | sent s p hp hchap he hl hv' =>
    left
    rcases hv' with rfl | ⟨w, hw, hph, rfl⟩
    · obtain ⟨hland, hcargo⟩ := stays (by rw [hv]) (by rw [hv])
      exact ⟨by rw [hchap], by rw [hchap], hland, [s], [], by rw [hchap],
        by rw [hcargo, List.append_nil], List.nil_subperm⟩
    · have hw' : τ.session.stance.worker = some (Stance.queue w (.send p)) := by rw [hv]
      refine ⟨by rw [hchap], by rw [hchap], ?_, [s], routed [p], by rw [hchap], ?_, keys_routed hp⟩
      · rw [landed_of_worker hw', landed_of_worker hw, hwork]
        rfl
      · rw [cargo_of_worker hw', cargo_of_worker hw, cargo_queue_send]
  | begun w started hw hl hph hchap he hv' =>
    subst hv'
    have hw' : τ.session.stance.worker = some (Stance.queue w (.barrier .newTransaction)) := by
      rw [hv]
    obtain ⟨hphase, hqueue⟩ := (hc.manned w hw).shape.resting (by simp [hl]) (by simp [hl])
    have hidle := hphase.resolve_right hph
    refine Or.inr ⟨hchap, ?_, ?_⟩
    · rw [landed_of_worker hw', landed_of_phase (by simp [Stance.queue, hidle])]
    · rw [cargo_of_worker hw']
      simp [Worker.cargo, Stance.queue, hidle, Phase.loads, pendings_append, hqueue hph, pendings,
        routed]
  | acquired id inherited hl hi hchap he hv' =>
    subst hv'
    have hnone := hc.fresh hl
    refine Or.inl (.same hchap ?_ ?_)
    · rw [landed_of_worker (by rw [hv]), landed_of_phase (by simp), landed, hnone]
    · rw [cargo_of_worker (by rw [hv]), cargo, hnone]
      rfl
  | finishing o back hchap he hl hr hv' =>
    subst hv'
    obtain ⟨hland, hcargo⟩ := stays (by rw [hv]) (by rw [hv])
    exact Or.inl (.same hchap hland hcargo)
  | concluded o hchap he h' hv' =>
    subst hv'
    obtain ⟨hland, hcargo⟩ := stays (by rw [hv]) (by rw [hv])
    exact Or.inl (.same hchap hland hcargo)
  | refused o back err fatal hchap he hw ha hfat hv' =>
    subst hv'
    obtain ⟨hland, hcargo⟩ := stays (by rw [hv]) (by rw [hv])
    exact Or.inl (.same hchap hland hcargo)

/-- **Every step keeps what is acknowledged among what was appended.** -/
theorem Delivered.step (h : σ.Delivered) (hc : σ.Coupled) (hτ : τ.Coupled) (hs : σ.Step a τ) :
    τ.Delivered := by
  cases hs with
  | same => exact h
  | others op => exact h
  | reachOwn now lost q hq => exact h
  | reachWork now lost q hq => exact delivered_reachWork h hc now lost hq
  | refuseOwn e q hq => exact h
  | refuseWork e q hq =>
    obtain ⟨done, h⟩ := h
    refine ⟨done, h.mono ?_ (List.Subperm.refl _)⟩
    simp only [landed]
    cases σ.session.stance.worker <;> exact List.nil_sublist _
  | turn a e τ hcall hanswer ht =>
    rcases carries_turned hc hτ ht with hon | ⟨hchap, hland, hcargo⟩
    · obtain ⟨done, h⟩ := h
      exact ⟨done, hon.delivered h⟩
    · refine ⟨[], ?_⟩
      rw [hchap, hland, hcargo]
      exact ⟨rfl, List.Sublist.refl _, List.nil_subperm⟩
  | moved a w w₀ w' barrier loads acked err q fatal started s' hw hsrc hn hfatal hst hen hv =>
    obtain ⟨done, h⟩ := h
    rw [landed_of_worker hw, cargo_of_worker hw] at h
    obtain ⟨hland, taken, hcargo, hacks, hkeys⟩ := carries_moved hsrc hn
    refine ⟨done ++ w.landed σ.work, ?_⟩
    have hdone := (h.mono (List.Sublist.refl _) hcargo).acknowledge hkeys
    rw [hacks] at hdone
    rw [landed_of_worker (w := w') (by rw [hv]), cargo_of_worker (w := w') (by rw [hv]), hland]
    exact hdone
  | stopped a w s' wait call' hw hwait hcall hv =>
    obtain ⟨done, h⟩ := h
    refine ⟨done, ?_⟩
    rw [landed_of_worker (by rw [hv]), cargo_of_worker (by rw [hv])]
    exact h.mono (List.nil_sublist _) List.nil_subperm

end Scene
end FencedLog
