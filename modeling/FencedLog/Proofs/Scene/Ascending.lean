/-
# Acknowledged sends of a partition have ascending offsets

The sends of a session to one partition that are acknowledged, followed by
those that its worker still has for it, are in the order in which they were
accepted (`InOrder`). A batch lands after all that is in the log, and the
worker goes on to the next only when it has heard of it. So as long as a topic
is not deleted, the offsets that the sends to one of its partitions are told
ascend in the order in which they were submitted, however its records are grouped, whichever
requests fail on the way and whichever answers are lost.

Key definitions: `Daybook.told`, `InOrder`, `History.Ascends`, `History.Ordered`.
Key theorems: `Daybook.Step.inOrder`, `History.Ascends.act`,
`History.Ascends.ordered`.
-/
import FencedLog.Proofs.Delivery.Lanes
import FencedLog.Proofs.Scene.Truthful

namespace FencedLog

/-- The acknowledged sends to one partition, in the order of the
acknowledgments. -/
def Daybook.told (b : Daybook) (p : TopicPartition) : List (Ticket × Placement) :=
  (acknowledged b.completed).filter (·.2.spot.1 = p)

/-- What the worker of a session has for one partition. -/
def Session.lane (s : Session) (p : TopicPartition) : List Load :=
  s.worker.elim [] fun w => FencedLog.lane p w.cargo

/-- The acknowledged sends to a partition, and those that the worker still
has for it, are in the order in which they were accepted. -/
def InOrder (s : Session) (b : Daybook) : Prop :=
  ∀ p, ((b.told p).map Prod.fst ++ (s.lane p).map Prod.snd).Sublist (b.accepted.map (·.ticket))

variable {p : TopicPartition} {s s' : Session} {b b' : Daybook} {e : Event}

theorem Session.lane_of {w : Worker} (h : s.worker = some w) :
    s.lane p = FencedLog.lane p w.cargo := by
  rw [lane, h]
  rfl

theorem SameLoad.lane (h : SameLoad s.worker s'.worker) (p : TopicPartition) :
    s'.lane p = s.lane p := by
  unfold Session.lane
  generalize s.worker = w at h
  generalize s'.worker = w' at h
  cases h with
  | none => rfl
  | start w hp hq => simp [Worker.cargo, hp, hq, Phase.loads, pendings, routed]
  | some w w' hp hq => simp only [Option.elim, Worker.cargo, hp, hq]

theorem tickets_routed (p : TopicPartition) (x : Pending) :
    ((FencedLog.lane p (routed [x])).map Prod.snd).Sublist [x.ticket] := by
  obtain ⟨target | target, record, ticket⟩ := x
  · exact List.nil_sublist _
  · rw [routed, lane_cons]
    split
    · exact .refl _
    · exact List.nil_sublist _

/-- The acknowledgments of what has landed, for one partition. -/
theorem tickets_landed (p : TopicPartition) (landed : List Receipt) :
    ((landed.map Receipt.ack).filter (·.2.spot.1 = p)).map Prod.fst =
      (FencedLog.lane p (landed.map Receipt.freight)).map Prod.snd := by
  simp only [FencedLog.lane, List.filter_map, List.map_map]
  rfl

theorem Daybook.told_append {done : List (Ticket × Completion)}
    (h : b'.completed = b.completed ++ done) (p : TopicPartition) :
    b'.told p = b.told p ++ (acknowledged done).filter (·.2.spot.1 = p) := by
  rw [told, h, acknowledged_append, List.filter_append]
  rfl

namespace Delivery

theorem acks_round (d : Delivery) (visible : Nat) : acks (d.round visible).2 = [] := by
  rcases goes_round d visible with ⟨-, hr⟩ | ⟨-, _, _, _, _, -, -, -, ha⟩
  · rw [hr]
    rfl
  · exact ha

end Delivery

/-- **Every event keeps the sends of a partition in order.** -/
theorem Daybook.Step.inOrder (h : Daybook.Step s b e s' b') (ho : InOrder s b) : InOrder s' b' := by
  intro p
  have hp := ho p
  -- a move of the worker
  have moves : ∀ {w : Worker} {r : Delivery × List Deed} {landed : List Receipt},
      s.worker = some w → s'.worker = some r.1.worker → b'.accepted = b.accepted →
      b'.completed = b.completed ++ completions r.2 →
      acks r.2 = landed.map Receipt.ack → Delivery.Keeps ⟨w, s.shared⟩ landed r →
      ((b'.told p).map Prod.fst ++ (s'.lane p).map Prod.snd).Sublist
        (b'.accepted.map (·.ticket)) := by
    intro w r landed hw hw' hacc hdone hacks hk
    rw [told_append hdone, acknowledged_completions, hacks, List.map_append, tickets_landed,
      Session.lane_of hw', List.append_assoc, ← List.map_append, hacc]
    rw [Session.lane_of hw] at hp
    exact ((List.Sublist.refl _).append ((hk p).map _)).trans hp
  cases h with
  | onward s' call' hw =>
    rw [hw.lane]
    exact hp
  | queued s' x m w call' hm hw hph hw' =>
    rw [Session.lane_of hw', Scene.cargo_queue_send, lane_append, ← Session.lane_of hw,
      List.map_append, List.map_append, ← List.append_assoc]
    refine hp.append ?_
    rw [List.map_singleton, ← hm.1]
    exact tickets_routed p m
  | waits s' m call' hw =>
    rw [show s'.lane p = s.lane p by rw [Session.lane, hw]; rfl]
    exact hp
  | abandoned s' x m call' hm hw =>
    rw [show s'.lane p = s.lane p by rw [Session.lane, hw]; rfl, List.map_append]
    -- what is abandoned is not acknowledged
    have htold : acknowledged (b.completed ++ [(m.ticket, .error .abandoned)]) =
        acknowledged b.completed := by
      rw [acknowledged_append]
      exact List.append_nil _
    rw [told, htold]
    exact hp.trans (List.sublist_append_left _ _)
  | moves w g r hw hadv he =>
    rcases he with ⟨visible, -, rfl⟩ | ⟨answer, -, rfl⟩
    · exact moves hw rfl rfl rfl (Delivery.acks_round _ visible) (Delivery.keeps_round _ visible)
    · exact moves hw rfl rfl rfl (Delivery.acks_answered _ answer) (Delivery.keeps_answered _ answer)
  | drains w hw hph hq =>
    have hsame : ({ s with worker := some { w with phase := .stopped } } : Session).lane p =
        s.lane p := by
      rw [Session.lane_of hw, Session.lane_of rfl, Worker.cargo, Worker.cargo, hph]
      rfl
    rw [hsame]
    exact hp
  | kills w wait call' hw =>
    have hnone : ({ s with wait := wait, worker := some { w with queue := [], phase := .stopped } } :
        Session).lane p = [] := rfl
    rw [hnone, List.map_nil, List.append_nil]
    exact (List.sublist_append_left _ _).trans hp

/-! ### Histories -/

/-- The receipts of an append have ascending offsets. -/
theorem ascending_receipts (p : TopicPartition) : ∀ (loads : List Load) (base : Nat),
    (receipts p base loads).Pairwise fun r r' => r.offset < r'.offset
  | [], _ => .nil
  | _ :: loads, base => by
    refine .cons (fun r hr => ?_) (ascending_receipts p loads (base + 1))
    obtain ⟨-, j, hoff, -⟩ := mem_receipts hr
    show base < r.offset
    omega

namespace Scene

variable {σ : Scene} {a : Act}

theorem ascending_landed (σ : Scene) : σ.landed.Pairwise fun r r' => r.offset < r'.offset := by
  unfold landed
  split
  · rename_i w _
    obtain ⟨p, base, loads, hland⟩ := w.landed_receipts σ.work
    rw [hland]
    exact ascending_receipts p loads base
  · exact .nil

/-- An answer that is lost for good is no event of the session yet. -/
theorem event?_of_not_transient (h : ¬ σ.Transient a) :
    σ.event? a = none ∧ σ.acknowledges a = [] := by
  cases a with
  | reach side => cases side <;> exact ⟨rfl, rfl⟩
  | _ => exact absurd trivial h

theorem acknowledges_of_ne (h : a ≠ .hear .work) : σ.acknowledges a = [] := by
  unfold acknowledges
  split
  · exact absurd rfl h
  · rfl

end Scene

namespace History

variable {h : History} {a : Act} {topic : String}

/-- What every act keeps that does not delete the topic. -/
structure Ascends (topic : String) (h : History) : Prop where
  coupled : h.scene.Coupled
  agrees : h.scene.Agrees h.book
  accounted : Accounted h.scene.session h.book
  chronicle : h.scene.chronicle.Accounted
  order : InOrder h.scene.session h.book
  told : ∀ p, p.topic = topic →
    (h.book.told p).Pairwise (fun x y => x.2.offset < y.2.offset) ∧
      ∀ x ∈ h.book.told p, ∃ e, h.scene.chronicle.broker.entryAt p x.2.offset = some e
  /-- What is about to be acknowledged comes after what is. -/
  landed : ∀ r ∈ h.scene.landed, r.partition.topic = topic →
    (∃ e, h.scene.chronicle.broker.entryAt r.partition r.offset = some e) ∧
      ∀ x ∈ h.book.told r.partition, x.2.offset < r.offset

theorem ascends_start (broker : BrokerConfig) (config : SessionConfig) :
    (start broker config).Ascends topic where
  coupled := Scene.coupled_start broker config
  agrees := ⟨rfl, List.Subset.refl _⟩
  accounted := .anew broker config
  chronicle := Chronicle.accounted_start broker
  order := fun _ => .refl _
  told := fun _ _ => ⟨.nil, fun _ hx => absurd hx List.not_mem_nil⟩
  landed := fun _ hr => absurd hr List.not_mem_nil

/-- An act of the session acknowledges what has landed, and nothing else. -/
theorem Ascends.told_act (hs : h.Ascends topic) (a : Act) (p : TopicPartition) :
    (h.act a).book.told p =
      h.book.told p ++ (h.scene.acknowledges a).filter (·.2.spot.1 = p) := by
  by_cases hp : h.scene.Transient a
  · obtain ⟨new, done, htells⟩ := Scene.tells hs.coupled hs.accounted hs.agrees hp
    rw [← htells.acks]
    exact Daybook.told_append htells.completed p
  · obtain ⟨he, hnone⟩ := Scene.event?_of_not_transient hp
    rw [hnone, List.filter_nil, List.append_nil, act, he]
    rfl

/-- The sends stay accounted for and in order. -/
theorem Ascends.order_act (hs : h.Ascends topic) (a : Act) :
    Accounted (h.act a).scene.session (h.act a).book ∧
      InOrder (h.act a).scene.session (h.act a).book := by
  rw [show (h.act a).scene.session = _ from Scene.session_act h.scene a]
  simp only [act]
  cases he : h.scene.event? a with
  | none => exact ⟨hs.accounted, hs.order⟩
  | some e =>
    have hne : e ≠ .abandoned := fun hne => Scene.event?_ne _ a (he.trans (congrArg some hne))
    obtain ⟨own, work, hc⟩ := hs.accounted.coupled
    have hstep := Daybook.steps hc (fun hl => (hs.accounted.closed hl).symm.imp_left And.left) hne
    exact ⟨hs.accounted.step hne, hstep.inOrder hs.order⟩

/-- **Every act keeps the offsets ascending**, as long as the topic is not
deleted. -/
theorem Ascends.act (hs : h.Ascends topic) (hd : a ≠ .others (.deleteTopic topic)) :
    (h.act a).Ascends topic := by
  have hcoupled := (hs.coupled.act a).2
  obtain ⟨haccounted, horder⟩ := hs.order_act a
  have stays : ∀ p i, p.topic = topic → (∃ e, h.scene.chronicle.broker.entryAt p i = some e) →
      ∃ e, (h.act a).scene.chronicle.broker.entryAt p i = some e := by
    rintro p i rfl ⟨e, he⟩
    exact ⟨e, Scene.entryAt_act he hd⟩
  refine ⟨hcoupled, Scene.agrees_act hs.agrees a, haccounted,
    Scene.accounted_act hs.chronicle a, horder, fun p hp => ?_, fun r hr ht => ?_⟩
  · obtain ⟨hasc, hthere⟩ := hs.told p hp
    rw [hs.told_act]
    by_cases ha : a = .hear .work
    · -- what has landed is told, and comes after what was told before
      subst ha
      rw [Scene.acknowledges, List.filter_map]
      have landed : ∀ x ∈ (h.scene.landed.filter fun r => r.ack.2.spot.1 = p).map Receipt.ack,
          ∃ r ∈ h.scene.landed, r.partition = p ∧ r.offset = x.2.offset := by
        intro x hx
        obtain ⟨r, hr, rfl⟩ := List.mem_map.mp hx
        obtain ⟨hr, hrp⟩ := List.mem_filter.mp hr
        exact ⟨r, hr, of_decide_eq_true hrp, rfl⟩
      refine ⟨List.pairwise_append.mpr ⟨hasc, ?_, fun x hx y hy => ?_⟩, fun x hx => ?_⟩
      · exact List.pairwise_map.mpr (h.scene.ascending_landed.filter _)
      · obtain ⟨r, hr, rfl, hoff⟩ := landed y hy
        exact hoff ▸ (hs.landed r hr hp).2 x hx
      · rcases List.mem_append.mp hx with hx | hx
        · exact stays p _ hp (hthere x hx)
        · obtain ⟨r, hr, rfl, hoff⟩ := landed x hx
          exact hoff ▸ stays _ _ hp (hs.landed r hr hp).1
    · rw [Scene.acknowledges_of_ne ha, List.filter_nil, List.append_nil]
      exact ⟨hasc, fun x hx => stays p _ hp (hthere x hx)⟩
  · have ha : a ≠ .hear .work := fun ha => by
      subst ha
      have hnone : (h.act (.hear .work)).scene.landed = [] := Scene.landed_hear h.scene
      rw [hnone] at hr
      exact absurd hr List.not_mem_nil
    rw [hs.told_act, Scene.acknowledges_of_ne ha, List.filter_nil, List.append_nil]
    rcases Scene.landed_act hs.coupled hr with hr | ⟨now, -, happ⟩
    · obtain ⟨hthere, hlast⟩ := hs.landed r hr ht
      exact ⟨stays _ _ ht hthere, hlast⟩
    · -- a new record comes after all that is there
      obtain ⟨⟨id, -, hentry⟩, hlast⟩ := Scene.kept_appended hs.coupled hs.chronicle happ
      refine ⟨⟨_, hentry⟩, fun x hx => ?_⟩
      obtain ⟨e, hthere⟩ := (hs.told r.partition ht).2 x hx
      exact hlast _ e hthere

theorem Ascends.run : ∀ {as : List Act} {h : History}, h.Ascends topic →
    .others (.deleteTopic topic) ∉ as → (h.run as).Ascends topic
  | [], _, hs, _ => hs
  | a :: as, _, hs, hno => by
    simp only [List.mem_cons, not_or] at hno
    exact (hs.act fun he => hno.1 he.symm).run hno.2

/-- What holds of any two members that are told, in order, holds of any two
that are. -/
theorem pairwise_of_sublist {α β : Type} {R : β → β → Prop} : ∀ {ts : List α} {told : List (α × β)},
    (told.map Prod.fst).Sublist ts → ts.Nodup → told.Pairwise (fun x y => R x.2 y.2) →
      ts.Pairwise fun t t' => ∀ m m', (t, m) ∈ told → (t', m') ∈ told → R m m'
  | [], _, _, _, _ => .nil
  | t :: ts, told, hsub, hnodup, hr => by
    obtain ⟨ht, hn⟩ := List.nodup_cons.mp hnodup
    have absent : ∀ {xs : List (α × β)} {m}, (xs.map Prod.fst).Sublist ts → (t, m) ∉ xs :=
      fun hxs hm => ht (hxs.subset (List.mem_map_of_mem hm))
    rcases List.sublist_cons_iff.mp hsub with hsub | ⟨rest, he, hsub⟩
    · exact .cons (fun t' _ m m' hm => absurd hm (absent hsub)) (pairwise_of_sublist hsub hn hr)
    · obtain ⟨⟨t, m₀⟩, told, rfl, rfl, rfl⟩ := List.map_eq_cons_iff.mp he
      obtain ⟨hfirst, hr⟩ := List.pairwise_cons.mp hr
      -- who is told and comes later is told later
      have later : ∀ {t'} {m'}, t' ∈ ts → (t', m') ∈ (t, m₀) :: told → (t', m') ∈ told := by
        intro t' m' ht' hm'
        refine (List.mem_cons.mp hm').resolve_left fun heq => ht ?_
        rwa [← congrArg Prod.fst heq]
      refine .cons (fun t' ht' m m' hm hm' => ?_) ?_
      · obtain rfl : m = m₀ := by
          rcases List.mem_cons.mp hm with heq | hm
          · exact congrArg Prod.snd heq
          · exact absurd hm (absent hsub)
        exact hfirst _ (later ht' hm')
      · refine (pairwise_of_sublist hsub hn hr).imp_of_mem fun ha hb hab m m' hm hm' => ?_
        exact hab m m' (later ha hm) (later hb hm')

/-- The acknowledged sends to each partition of a topic have ascending offsets,
in the order in which they were accepted. -/
def Ordered (h : History) (topic : String) : Prop :=
  h.book.accepted.Pairwise fun x y => ∀ m m', (x.ticket, .ok m) ∈ h.book.completed →
    (y.ticket, .ok m') ∈ h.book.completed → m.topic = topic → m'.spot.1 = m.spot.1 →
    m.offset < m'.offset

/-- **Two acknowledged sends to a partition have ascending offsets.** -/
theorem Ascends.ordered (hs : h.Ascends topic) (hn : (h.book.accepted.map (·.ticket)).Nodup) :
    h.Ordered topic := by
  refine List.pairwise_iff_forall_sublist.mpr fun hsub m m' hm hm' ht hspot => ?_
  have told : ∀ {t : Ticket} {m' : Placement}, (t, .ok m') ∈ h.book.completed →
      m'.spot.1 = m.spot.1 → (t, m') ∈ h.book.told m.spot.1 := fun hm' hspot =>
    List.mem_filter.mpr ⟨mem_acknowledged hm', decide_eq_true hspot⟩
  have hall := pairwise_of_sublist (R := fun m m' => m.offset < m'.offset)
    ((List.sublist_append_left _ _).trans (hs.order m.spot.1)) hn (hs.told m.spot.1 ht).1
  exact List.pairwise_iff_forall_sublist.mp (List.pairwise_map.mp hall) hsub m m'
    (told hm rfl) (told hm' hspot)

end History
end FencedLog
